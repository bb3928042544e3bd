import DisciplinedConvex.Proofs.Reach
import DisciplinedConvex.Proofs.Meaning.Atom

/-! # The meaning of expressions

* A `Point` gives every variable its entries, and `Expr.value` is the table that an expression has
  there, in exact arithmetic.
* `Expr.domain` holds the points where every node of an expression is defined.
* `Expr.respecting` holds the points where the variables have their declared signs; `Sign.Allows` is
  what a sign says of a number.
* `Expr.IsClassified` says that the test of definiteness is right about the matrix of a quadratic
  form, and `Expr.HasFiniteEntries` that a constant is finite. `Expr.IsRegular` collects what is
  asked of every node.
-/

namespace DisciplinedConvex
set_option autoImplicit false

variable {K : Type*} [Field K] [LinearOrder K]

/-- The entries of every variable, by its id. -/
abbrev Point (K : Type*) := ℕ → ℕ × ℕ → K

/-- What a sign says of a number. -/
structure Sign.Allows (s : Sign) (t : K) : Prop where
  nonneg : s.isNonneg = true → 0 ≤ t
  nonpos : s.isNonpos = true → t ≤ 0

variable (K) in
/-- The entries of a constant, exactly. -/
def Value.table (v : Value) : Table K where
  rows := v.shape.rows.toNat
  cols := v.shape.cols.toNat
  entry p := (Number.exact (v.entry p.1 p.2) : ℚ)

/-- The entries of a variable at a point. -/
def Variable.table (v : Variable) (ρ : Point K) : Table K where
  rows := v.shape.rows.toNat
  cols := v.shape.cols.toNat
  entry := ρ v.id

namespace Expr

mutual

def value (S : Textbook K) (ρ : Point K) : Expr → Table K
  | var v => v.table ρ
  | const _ v => v.table K
  | unary _ op x => op.table S (x.value S ρ)
  | binary _ op x y => op.table (x.value S ρ) (y.value S ρ)
  | variadic _ op x xs => op.table (x.value S ρ) (values S ρ xs)

/-- The tables of a list of expressions. -/
def values (S : Textbook K) (ρ : Point K) : List Expr → List (Table K)
  | [] => []
  | x :: xs => x.value S ρ :: values S ρ xs

end

@[simp] theorem values_eq_map (S : Textbook K) (ρ : Point K) (xs : List Expr) :
    values S ρ xs = xs.map (value S ρ) := by
  induction xs with
  | nil => rfl
  | cons x xs ih => simp [values, ih]

/-- The entry at a position, as a function of the point. -/
def entryAt (S : Textbook K) (e : Expr) (p : ℕ × ℕ) (ρ : Point K) : K := (e.value S ρ).entry p

/-! ## Dimensions

The dimensions of an expression do not depend on the point. -/

theorem dims_value (S : Textbook K) (e : Expr) (ρ σ : Point K) :
    (e.value S ρ).rows = (e.value S σ).rows ∧ (e.value S ρ).cols = (e.value S σ).cols := by
  induction e with
  | var v => exact ⟨rfl, rfl⟩
  | const id v => exact ⟨rfl, rfl⟩
  | unary label op x ih => exact op.dims_table S ih
  | binary label op x y ihx ihy => exact op.dims_table ihx ihy
  | variadic label op x xs ihx ihxs =>
    rw [value, value, values_eq_map, values_eq_map]
    refine op.dims_table ihx ?_
    rw [List.forall₂_map_left_iff, List.forall₂_map_right_iff, List.forall₂_same]
    exact ihxs

/-- The positions inside of the dimensions of an expression. -/
def positions (S : Textbook K) (e : Expr) : Finset (ℕ × ℕ) := (e.value S 0).positions

theorem positions_value (S : Textbook K) (e : Expr) (ρ : Point K) :
    (e.value S ρ).positions = e.positions S :=
  Table.positions_congr (e.dims_value S ρ 0)

/-! ## Where an expression is defined -/

/-- The arguments of the root lie in the domain of its atom. -/
def IsDefinedAt (S : Textbook K) (ρ : Point K) : Expr → Prop
  | unary _ op x => (x.value S ρ).All (· ∈ op.domain)
  | binary _ .quadOverLin _ y => (y.value S ρ).All (0 < ·)
  | _ => True

/-- The points where every node is defined. -/
def domain (S : Textbook K) (e : Expr) : Set (Point K) := {ρ | e.Everywhere (IsDefinedAt S ρ)}

/-- The points where every variable has its declared sign. -/
def respecting (K : Type*) [Field K] [LinearOrder K] (e : Expr) : Set (Point K) :=
  {ρ | ∀ v ∈ e.leaves, (v.table ρ).All v.declaration.sign.Allows}

/-- The points at which an expression is looked at. -/
def region (S : Textbook K) (e : Expr) : Set (Point K) := e.respecting K ∩ e.domain S

theorem mem_region_args {S : Textbook K} {ρ : Point K} {e x : Expr} (h : ρ ∈ e.region S)
    (hx : x ∈ e.args) : ρ ∈ x.region S := by
  obtain ⟨hs, hd⟩ := h
  exact ⟨fun v hv => hs v (mem_leaves_of_mem_args hx hv), (everywhere_iff.1 hd).2 x hx⟩

/-! ## What is assumed of an expression -/

def HasFiniteEntries : Expr → Prop
  | const _ v =>
    ∀ i < v.shape.rows.toNat, ∀ j < v.shape.cols.toNat, (v.entry i j).isFinite = true
  | _ => True

theorem hasFiniteEntries_scalar {id : Nat} {v : Float} (h : v.isFinite = true) :
    (const id (.scalar v)).HasFiniteEntries :=
  fun _ _ _ _ => h

/-- A power above one is an even integer. -/
def HasCertifiedPower : Expr → Prop
  | unary _ (.power p) _ => 1 < Number.exact p → Number.IsEven (Number.exact p)
  | _ => True

end Expr

variable (K) in
def Value.form (v : Value) (z : ℕ → K) : K :=
  ∑ i ∈ Finset.range v.shape.rows.toNat, ∑ j ∈ Finset.range v.shape.rows.toNat,
    z i * (v.table K).entry (i, j) * z j

namespace Expr

/-- The test of definiteness is right about the matrix of a quadratic form. -/
def IsClassified (K : Type*) [Field K] [LinearOrder K] : Expr → Prop
  | binary _ .quadForm _ (const _ v) =>
    (v.definiteness = .positive → ∀ z, 0 ≤ v.form K z) ∧
    (v.definiteness = .negative → ∀ z, v.form K z ≤ 0)
  | _ => True

/-- What is asked of every node of an expression. -/
structure IsRegular (K : Type*) [Field K] [LinearOrder K] (e : Expr) : Prop where
  valid : e.IsValid
  finite : e.HasFiniteEntries
  classified : e.IsClassified K

theorem Built.isRegular {e : Expr} (hb : e.Built) (hfits : e.Everywhere FitsWord)
    (hfinite : e.Everywhere HasFiniteEntries) (hclassified : e.Everywhere (IsClassified K)) :
    e.Everywhere (IsRegular K) :=
  fun y hy => ⟨hb.isValid hfits y hy, hfinite y hy, hclassified y hy⟩

end Expr

end DisciplinedConvex
