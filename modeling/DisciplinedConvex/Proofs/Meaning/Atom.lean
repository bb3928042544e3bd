import DisciplinedConvex.Atom.Basic
import DisciplinedConvex.Proofs.Meaning.Table
import DisciplinedConvex.Proofs.Meaning.Textbook

/-! # The meaning of atoms

What an atom makes of the tables of its arguments.

* `Unary.table`, `Binary.table` and `Variadic.table` give the table of an application; an atom of
  many arguments combines two tables at a time.
* `Unary.domain` is where an atom that works entry by entry is defined.
* All unary atoms but three norms add up a function (`Unary.onNumber`) of the entries at some
  positions (`Unary.sources`), so that one statement about sums covers them (`Unary.table_eq_sum`).
  Of the three norms what is known is that they are gauges (`Unary.table_eq_gauge`).
* Both products are sums of products of entries (`Binary.table_eq_products`).
-/

namespace DisciplinedConvex
set_option autoImplicit false

variable {K : Type*} [Field K] [LinearOrder K] [IsStrictOrderedRing K]

/-! ## One argument -/

namespace Unary

/-- The position of the entry that a reshape puts at `p`, counted column by column. -/
def reshaped (target : Shape) (x : Table K) (p : ℕ × ℕ) : ℕ × ℕ :=
  let k := p.2 * target.rows.toNat + p.1
  (k % x.rows, k / x.rows)

def table (S : Textbook K) (op : Unary) (x : Table K) : Table K :=
  match op with
  | neg => x.map fun t => -t
  | sum => .scalar (∑ p ∈ x.positions, x.entry p)
  | reshape target =>
    ⟨target.rows.toNat, target.cols.toNat, fun p => x.entry (reshaped target x p)⟩
  | transpose => ⟨x.cols, x.rows, fun p => x.entry p.swap⟩
  | index s =>
    ⟨s.rows.stop.toNat - s.rows.start.toNat, s.cols.stop.toNat - s.cols.start.toNat,
      fun p => x.entry (s.rows.start.toNat + p.1, s.cols.start.toNat + p.2)⟩
  | trace => .scalar (∑ i ∈ Finset.range x.rows, x.entry (i, i))
  | diag =>
    if x.cols = 1 then ⟨x.rows, x.rows, fun p => if p.1 = p.2 then x.entry (p.1, 0) else 0⟩
    else ⟨x.rows, 1, fun p => x.entry (p.1, p.1)⟩
  | abs => x.map fun t => |t|
  | pos => x.map fun t => max t 0
  | negPart => x.map fun t => max (-t) 0
  | square => x.map fun t => t ^ 2
  | sqrt => x.map S.sqrt
  | power p => x.map (S.power (Number.exact p))
  | exp => x.map S.exp
  | log => x.map S.log
  | entropy => x.map S.entropy
  | norm1 => .scalar (∑ p ∈ x.positions, |x.entry p|)
  | norm2 => .scalar (S.norm2 x.positions x.entry)
  | normInf => .scalar (maxAbs x.positions x.entry)
  | normFro => .scalar (S.normFro x.positions x.entry)
  | sumSquares => .scalar (∑ p ∈ x.positions, x.entry p ^ 2)

/-- The numbers to which an atom applies. -/
def domain : Unary → Set K
  | sqrt | entropy => Set.Ici 0
  | log => Set.Ioi 0
  | power p => powerDomain (Number.exact p)
  | _ => Set.univ

/-! ### Sums over entries -/

def onNumber (S : Textbook K) : Unary → K → K
  | neg => fun t => -t
  | abs | norm1 => fun t => |t|
  | pos => fun t => max t 0
  | negPart => fun t => max (-t) 0
  | square | sumSquares => fun t => t ^ 2
  | sqrt => S.sqrt
  | power p => S.power (Number.exact p)
  | exp => S.exp
  | log => S.log
  | entropy => S.entropy
  | _ => id

/-- The positions of the entries that make up the entry of the result at `p`. -/
def sources (op : Unary) (x : Table K) (p : ℕ × ℕ) : Finset (ℕ × ℕ) :=
  match op with
  | sum | norm1 | sumSquares => x.positions
  | reshape target => {reshaped target x p}
  | transpose => {p.swap}
  | index s => {(s.rows.start.toNat + p.1, s.cols.start.toNat + p.2)}
  | trace => (Finset.range x.rows).image fun i => (i, i)
  | diag => if x.cols = 1 then if p.1 = p.2 then {(p.1, 0)} else ∅ else {(p.1, p.1)}
  | _ => {p}

/-- The three norms that are no sums. -/
def gauge? (S : Textbook K) : Unary → Option (Finset (ℕ × ℕ) → (ℕ × ℕ → K) → K)
  | norm2 => some S.norm2
  | normInf => some maxAbs
  | normFro => some S.normFro
  | _ => none

theorem table_eq_gauge {S : Textbook K} {op : Unary} {N : Finset (ℕ × ℕ) → (ℕ × ℕ → K) → K}
    (h : op.gauge? S = some N) (x : Table K) :
    op.table S x = .scalar (N x.positions x.entry) ∧ IsGauge x.positions (N x.positions) := by
  cases op <;> cases h
  · exact ⟨rfl, S.norm2_gauge _⟩
  · exact ⟨rfl, maxAbs_gauge _⟩
  · exact ⟨rfl, S.normFro_gauge _⟩

omit [IsStrictOrderedRing K] in
theorem table_eq_sum {S : Textbook K} {op : Unary} (h : op.gauge? S = none) (x : Table K)
    (p : ℕ × ℕ) :
    (op.table S x).entry p = ∑ q ∈ op.sources x p, op.onNumber S (x.entry q) := by
  cases op
  case trace =>
    rw [sources, Finset.sum_image (fun i _ j _ hij => (Prod.ext_iff.1 hij).1)]
    rfl
  case diag =>
    simp only [table, sources, onNumber]
    split
    · dsimp only
      split <;> simp
    · simp
  case norm2 => cases h
  case normInf => cases h
  case normFro => cases h
  all_goals first | rfl | exact (Finset.sum_singleton _ _).symm

omit [IsStrictOrderedRing K] in
theorem dims_table (S : Textbook K) (op : Unary) {x z : Table K}
    (h : x.rows = z.rows ∧ x.cols = z.cols) :
    (op.table S x).rows = (op.table S z).rows ∧ (op.table S x).cols = (op.table S z).cols := by
  obtain ⟨hr, hc⟩ := h
  cases op
  case diag =>
    simp only [table, hc]
    split <;> exact ⟨hr, by first | exact hr | rfl⟩
  case transpose => exact ⟨hc, hr⟩
  all_goals first | exact ⟨rfl, rfl⟩ | exact ⟨hr, hc⟩

end Unary

/-! ## Two arguments -/

namespace Binary

def table (op : Binary) (x y : Table K) : Table K :=
  match op with
  | add => .broadcast (· + ·) x y
  | mul => .broadcast (· * ·) x y
  | matmul =>
    if x.IsScalar ∨ y.IsScalar then .broadcast (· * ·) x y
    else ⟨x.rows, y.cols, fun p => ∑ k ∈ Finset.range x.cols, x.entry (p.1, k) * y.entry (k, p.2)⟩
  | quadOverLin => .scalar ((∑ p ∈ x.positions, x.entry p ^ 2) / y.entry (0, 0))
  | quadForm =>
    .scalar (∑ i ∈ Finset.range x.rows, ∑ j ∈ Finset.range x.rows,
      x.entry (i, 0) * y.entry (i, j) * x.entry (j, 0))

/-- The positions of the entries whose products make up the entry of a product at `p`. -/
def factors (op : Binary) (x y : Table K) (p : ℕ × ℕ) : Finset ((ℕ × ℕ) × (ℕ × ℕ)) :=
  if op = matmul ∧ ¬ (x.IsScalar ∨ y.IsScalar) then
    (Finset.range x.cols).image fun k => ((p.1, k), (k, p.2))
  else {(x.place p, y.place p)}

omit [LinearOrder K] [IsStrictOrderedRing K] in
theorem table_eq_products {op : Binary} (h : op = mul ∨ op = matmul) (x y : Table K)
    (p : ℕ × ℕ) :
    (op.table x y).entry p = ∑ q ∈ op.factors x y p, x.entry q.1 * y.entry q.2 := by
  rcases h with rfl | rfl
  · simp [table, factors, Table.broadcast]
  · by_cases hs : x.IsScalar ∨ y.IsScalar
    · simp [table, factors, hs, Table.broadcast]
    · have hinj : ∀ i ∈ Finset.range x.cols, ∀ j ∈ Finset.range x.cols,
          ((p.1, i), (i, p.2)) = ((p.1, j), (j, p.2)) → i = j := by
        intro i _ j _ hij
        exact (Prod.ext_iff.1 (Prod.ext_iff.1 hij).2).1
      simp only [table, factors, hs, not_false_eq_true, and_self, if_true, if_false]
      rw [Finset.sum_image hinj]

omit [LinearOrder K] [IsStrictOrderedRing K] in
theorem dims_table (op : Binary) {x z x' z' : Table K}
    (h : x.rows = z.rows ∧ x.cols = z.cols) (h' : x'.rows = z'.rows ∧ x'.cols = z'.cols) :
    (op.table x x').rows = (op.table z z').rows ∧
      (op.table x x').cols = (op.table z z').cols := by
  cases op
  case add => exact Table.dims_broadcast _ h h'
  case mul => exact Table.dims_broadcast _ h h'
  case matmul =>
    simp only [table, Table.isScalar_congr h, Table.isScalar_congr h']
    split
    · exact Table.dims_broadcast _ h h'
    · exact ⟨h.1, h'.2⟩
  all_goals exact ⟨rfl, rfl⟩

end Binary

/-! ## Many arguments -/

namespace Variadic

def combine : Variadic → Table K → Table K → Table K
  | vstack => .above
  | hstack => .beside
  | maximum => .broadcast max
  | minimum => .broadcast min

def table (op : Variadic) (x : Table K) (xs : List (Table K)) : Table K := xs.foldl op.combine x

omit [Field K] [IsStrictOrderedRing K] in
theorem dims_combine (op : Variadic) {x z x' z' : Table K}
    (h : x.rows = z.rows ∧ x.cols = z.cols) (h' : x'.rows = z'.rows ∧ x'.cols = z'.cols) :
    (op.combine x x').rows = (op.combine z z').rows ∧
      (op.combine x x').cols = (op.combine z z').cols := by
  cases op with
  | vstack => exact ⟨congrArg₂ (· + ·) h.1 h'.1, h.2⟩
  | hstack => exact ⟨h.1, congrArg₂ (· + ·) h.2 h'.2⟩
  | maximum => exact Table.dims_broadcast _ h h'
  | minimum => exact Table.dims_broadcast _ h h'

omit [Field K] [IsStrictOrderedRing K] in
theorem dims_table (op : Variadic) {x z : Table K} {xs zs : List (Table K)}
    (h : x.rows = z.rows ∧ x.cols = z.cols)
    (hs : List.Forall₂ (fun x z => x.rows = z.rows ∧ x.cols = z.cols) xs zs) :
    (op.table x xs).rows = (op.table z zs).rows ∧
      (op.table x xs).cols = (op.table z zs).cols := by
  induction hs generalizing x z with
  | nil => exact h
  | cons h' _ ih => exact ih (op.dims_combine h h')

end Variadic

end DisciplinedConvex
