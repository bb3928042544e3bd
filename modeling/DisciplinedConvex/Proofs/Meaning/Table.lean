import Mathlib.Algebra.BigOperators.Ring.Finset
import Mathlib.Algebra.Order.BigOperators.Group.Finset
import Mathlib.Data.Finset.Fold
import Mathlib.Tactic.Linarith
import Mathlib.Tactic.Ring
import DisciplinedConvex.Shape

/-! # Tables

The values of expressions in exact arithmetic.

* `Table` is a matrix of numbers with its dimensions, and `Table.positions` are the positions inside
  of them.
* `Table.broadcast` combines two tables entry by entry, with a scalar in place of a table of any
  dimensions; `Table.above` and `Table.beside` put two tables together.
* `Table.All` says something of every entry.
-/

namespace DisciplinedConvex
set_option autoImplicit false

/-- A matrix of numbers. What stands outside of the dimensions has no meaning. -/
structure Table (K : Type*) where
  rows : ℕ
  cols : ℕ
  entry : ℕ × ℕ → K

namespace Table

variable {K : Type*}

def positions (x : Table K) : Finset (ℕ × ℕ) := Finset.range x.rows ×ˢ Finset.range x.cols

def IsScalar (x : Table K) : Prop := x.rows = 1 ∧ x.cols = 1

instance (x : Table K) : Decidable x.IsScalar := inferInstanceAs (Decidable (_ ∧ _))

def scalar (v : K) : Table K := ⟨1, 1, fun _ => v⟩

def map (f : K → K) (x : Table K) : Table K := ⟨x.rows, x.cols, fun p => f (x.entry p)⟩

/-! ## Two tables -/

/-- Where a table is read for position `p` of a result: a scalar has one entry for all. -/
def place (x : Table K) (p : ℕ × ℕ) : ℕ × ℕ := if x.IsScalar then (0, 0) else p

def broadcast (f : K → K → K) (x y : Table K) : Table K where
  rows := if x.IsScalar then y.rows else x.rows
  cols := if x.IsScalar then y.cols else x.cols
  entry p := f (x.entry (x.place p)) (y.entry (y.place p))

theorem broadcast_of_isScalar (f : K → K → K) {x y : Table K} (h : x.IsScalar) :
    broadcast f x y = ⟨y.rows, y.cols, fun p => f (x.entry (0, 0)) (y.entry (y.place p))⟩ := by
  simp only [broadcast, place, if_pos h]

theorem broadcast_of_not_isScalar (f : K → K → K) {x y : Table K} (h : ¬ x.IsScalar) :
    broadcast f x y = ⟨x.rows, x.cols, fun p => f (x.entry p) (y.entry (y.place p))⟩ := by
  simp only [broadcast, place, if_neg h]

/-- Equal dimensions, or one of the two is a scalar. -/
def Compatible (x y : Table K) : Prop :=
  x.IsScalar ∨ y.IsScalar ∨ (x.rows = y.rows ∧ x.cols = y.cols)

def above (x y : Table K) : Table K where
  rows := x.rows + y.rows
  cols := x.cols
  entry p := if p.1 < x.rows then x.entry p else y.entry (p.1 - x.rows, p.2)

def beside (x y : Table K) : Table K where
  rows := x.rows
  cols := x.cols + y.cols
  entry p := if p.2 < x.cols then x.entry p else y.entry (p.1, p.2 - x.cols)

/-! ## Entries -/

def All (P : K → Prop) (x : Table K) : Prop := ∀ p ∈ x.positions, P (x.entry p)

structure HasShape (x : Table K) (s : Shape) : Prop where
  rows : x.rows = s.rows.toNat
  cols : x.cols = s.cols.toNat

theorem mem_positions {x : Table K} {p : ℕ × ℕ} :
    p ∈ x.positions ↔ p.1 < x.rows ∧ p.2 < x.cols := by
  simp [positions]

@[simp] theorem mem_positions_scalar {v : K} {p : ℕ × ℕ} :
    p ∈ (scalar v).positions ↔ p = (0, 0) := by
  simp [mem_positions, scalar, Prod.ext_iff]

@[simp] theorem all_scalar {P : K → Prop} {v : K} : (scalar v).All P ↔ P v :=
  ⟨fun h => h (0, 0) (mem_positions_scalar.2 rfl), fun h _ _ => h⟩

@[simp] theorem all_map {P : K → Prop} {f : K → K} {x : Table K} :
    (x.map f).All P ↔ x.All fun t => P (f t) := Iff.rfl

theorem All.imp {P Q : K → Prop} {x : Table K} (h : x.All P) (hpq : ∀ t, P t → Q t) : x.All Q :=
  fun p hp => hpq _ (h p hp)

/-! ## Tables of the same dimensions -/

theorem positions_congr {x z : Table K} (h : x.rows = z.rows ∧ x.cols = z.cols) :
    x.positions = z.positions := by
  rw [positions, positions, h.1, h.2]

theorem isScalar_congr {x z : Table K} (h : x.rows = z.rows ∧ x.cols = z.cols) :
    x.IsScalar ↔ z.IsScalar := by
  rw [IsScalar, IsScalar, h.1, h.2]

theorem place_congr {x z : Table K} (h : x.rows = z.rows ∧ x.cols = z.cols) :
    x.place = z.place := by
  funext p
  simp only [place, isScalar_congr h]

theorem dims_broadcast (f : K → K → K) {x z x' z' : Table K}
    (h : x.rows = z.rows ∧ x.cols = z.cols) (h' : x'.rows = z'.rows ∧ x'.cols = z'.cols) :
    (broadcast f x x').rows = (broadcast f z z').rows ∧
      (broadcast f x x').cols = (broadcast f z z').cols := by
  simp only [broadcast, isScalar_congr h, h.1, h.2, h'.1, h'.2, and_self]

theorem HasShape.congr {x z : Table K} {s : Shape} (hx : x.HasShape s) (hz : z.HasShape s) :
    x.rows = z.rows ∧ x.cols = z.cols :=
  ⟨hx.rows.trans hz.rows.symm, hx.cols.trans hz.cols.symm⟩

/-! ## Positions that are read -/

theorem mem_of_isScalar {x : Table K} (h : x.IsScalar) : (0, 0) ∈ x.positions := by
  rw [mem_positions, h.1, h.2]
  decide

theorem place_eq {x : Table K} {p : ℕ × ℕ} (hp : p ∈ x.positions) : x.place p = p := by
  unfold place
  split
  case isTrue h =>
    rw [mem_positions, h.1, h.2, Nat.lt_one_iff, Nat.lt_one_iff] at hp
    exact (Prod.ext hp.1 hp.2).symm
  case isFalse => rfl

theorem place_mem {f : K → K → K} {x y : Table K} {p : ℕ × ℕ} (h : Compatible x y)
    (hp : p ∈ (broadcast f x y).positions) :
    x.place p ∈ x.positions ∧ y.place p ∈ y.positions := by
  simp only [mem_positions, broadcast] at hp
  unfold place
  by_cases hx : x.IsScalar
  · rw [if_pos hx]
    refine ⟨mem_of_isScalar hx, ?_⟩
    split
    · exact mem_of_isScalar ‹_›
    · simpa [mem_positions, hx] using hp
  · rw [if_neg hx, mem_positions]
    rw [if_neg hx, if_neg hx] at hp
    refine ⟨hp, ?_⟩
    rcases h with h | h | ⟨hr, hc⟩
    · exact absurd h hx
    · rw [if_pos h]
      exact mem_of_isScalar h
    · split
      · exact mem_of_isScalar ‹_›
      · rwa [mem_positions, ← hr, ← hc]

/-- A part of two stacked tables is read at each position. -/
theorem all_above {P : K → Prop} {x y : Table K} (hc : x.cols = y.cols) (hx : x.All P)
    (hy : y.All P) : (above x y).All P := by
  rintro ⟨i, j⟩ hp
  simp only [mem_positions, above] at hp
  simp only [above]
  split
  · exact hx _ (mem_positions.2 ⟨‹_›, hp.2⟩)
  · exact hy _ (mem_positions.2 ⟨by simp only; omega, hc ▸ hp.2⟩)

theorem all_beside {P : K → Prop} {x y : Table K} (hr : x.rows = y.rows) (hx : x.All P)
    (hy : y.All P) : (beside x y).All P := by
  rintro ⟨i, j⟩ hp
  simp only [mem_positions, beside] at hp
  simp only [beside]
  split
  · exact hx _ (mem_positions.2 ⟨hp.1, ‹_›⟩)
  · exact hy _ (mem_positions.2 ⟨hr ▸ hp.1, by simp only; omega⟩)

theorem all_broadcast {P Q R : K → Prop} {f : K → K → K} {x y : Table K} (h : Compatible x y)
    (hx : x.All P) (hy : y.All Q) (hf : ∀ a b, P a → Q b → R (f a b)) :
    (broadcast f x y).All R := by
  intro p hp
  obtain ⟨hpx, hpy⟩ := place_mem h hp
  exact hf _ _ (hx _ hpx) (hy _ hpy)

end Table

end DisciplinedConvex
