import DisciplinedConvex.Proofs.Meaning.Grid
import DisciplinedConvex.Proofs.Number

/-! # Evaluation does not get stuck

* `Functions` are the scalar functions that arithmetic does not give. They are total, and nothing is
  asked of them.
* `Expr.eval` finds the grid of an expression from the leaves upwards. It has no value where an
  operation meets dimensions that do not go together, or a position that is not there.
* `Unary.ends_eval`, `Binary.ends_eval` and `Variadic.ends_eval` are the steps, and
  `Expr.eval_succeeds` is the statement for what the builders make.
-/

namespace DisciplinedConvex
set_option autoImplicit false

structure Functions (K : Type*) where
  exp : K → K
  log : K → K
  sqrt : K → K
  entropy : K → K
  power : ℚ → K → K

/-- A matrix of the declared shape for every variable. -/
abbrev Valuation (K : Type*) :=
  ∀ v : Variable, Matrix (Fin v.shape.rows.toNat) (Fin v.shape.cols.toNat) K

/-! ## Operations -/

section Evaluation

variable {K : Type*} [Field K] [LinearOrder K]

def Unary.eval (F : Functions K) (op : Unary) (x : Grid K) : Option (Grid K) :=
  match op with
  | neg => some (x.map fun t => -t)
  | sum => some (.scalar x.total)
  | reshape target => x.reshape? target.rows.toNat target.cols.toNat
  | transpose => some x.transpose
  | index s => x.block? s.rows.start.toNat s.rows.stop.toNat s.cols.start.toNat s.cols.stop.toNat
  | trace => x.trace?
  | diag => x.diag?
  | abs => some (x.map fun t => |t|)
  | pos => some (x.map fun t => max t 0)
  | negPart => some (x.map fun t => max (-t) 0)
  | square => some (x.map fun t => t ^ 2)
  | sqrt => some (x.map F.sqrt)
  | power p => some (x.map (F.power (Number.exact p)))
  | exp => some (x.map F.exp)
  | log => some (x.map F.log)
  | entropy => some (x.map F.entropy)
  | norm1 => some (.scalar (x.map fun t => |t|).total)
  | norm2 | normFro => some (.scalar (F.sqrt (x.map fun t => t ^ 2).total))
  | normInf => some (.scalar x.maxAbs)
  | sumSquares => some (.scalar (x.map fun t => t ^ 2).total)

def Binary.eval (op : Binary) (x y : Grid K) : Option (Grid K) :=
  match op with
  | add => Grid.combine? (· + ·) x y
  | mul => Grid.combine? (· * ·) x y
  | matmul => x.matmul? y
  | quadOverLin => y.single?.map fun d => .scalar ((x.map fun t => t ^ 2).total / d)
  | quadForm => x.form? y

def Variadic.combine? (op : Variadic) : Grid K → Grid K → Option (Grid K) :=
  match op with
  | vstack => Grid.above?
  | hstack => Grid.beside?
  | maximum => Grid.combine? max
  | minimum => Grid.combine? min

/-- Many grids are combined two at a time. -/
def Variadic.eval (op : Variadic) (x : Grid K) (xs : List (Grid K)) : Option (Grid K) :=
  xs.foldlM op.combine? x

variable (K) in
/-- The entries of a constant, exactly. -/
def Value.grid (v : Value) : Grid K where
  rows := v.shape.rows.toNat
  cols := v.shape.cols.toNat
  entry i j := (Number.exact (v.entry i j) : ℚ)

namespace Expr

mutual

def eval (F : Functions K) (ρ : Valuation K) : Expr → Option (Grid K)
  | var v => some ⟨_, _, ρ v⟩
  | const _ v => some (v.grid K)
  | unary _ op x => (x.eval F ρ).bind (op.eval F)
  | binary _ op x y => (x.eval F ρ).bind fun a => (y.eval F ρ).bind fun b => op.eval a b
  | variadic _ op x xs => (x.eval F ρ).bind fun a => (evals F ρ xs).bind fun as => op.eval a as

/-- The grids of a list of expressions. -/
def evals (F : Functions K) (ρ : Valuation K) : List Expr → Option (List (Grid K))
  | [] => some []
  | x :: xs => (x.eval F ρ).bind fun a => (evals F ρ xs).map fun as => a :: as

end

end Expr

/-! ## Steps -/

open Grid

variable {F : Functions K} {x y : Grid K} {s t r : Shape}

theorem Unary.ends_eval {op : Unary} (h : op.shape? s = .ok t) (hx : x.HasShape s) :
    Ends (op.eval F x) t := by
  cases op
  case reshape target =>
    obtain ⟨rfl, hcount⟩ := of_reshape h
    exact ends_reshape? hx hcount
  case index selection =>
    obtain ⟨hrows, hcols⟩ := of_index h
    exact ends_block? hx hrows hcols
  case trace =>
    obtain ⟨rfl, hsquare⟩ := of_trace h
    exact ends_trace? hx hsquare
  case diag => exact ends_diag? hx h
  case transpose =>
    cases h
    exact hx.transpose.ends
  all_goals
    cases h
    first | exact (hasShape_scalar _).ends | exact (hx.map _).ends

omit [LinearOrder K] in
theorem Binary.ends_eval {op : Binary} (h : op.shape? s t = .ok r) (hx : x.HasShape s)
    (hy : y.HasShape t) : Ends (op.eval x y) r := by
  cases op with
  | add => exact ends_combine? _ hx hy (shape?_entrywise (.inl rfl) h)
  | mul => exact ends_combine? _ hx hy (shape?_entrywise (.inr rfl) h)
  | matmul => exact ends_matmul? hx hy (shape?_matmul h)
  | quadOverLin =>
    obtain ⟨ht, rfl⟩ := shape?_quadOverLin h
    rw [← hy.isSome_single?, Option.isSome_iff_exists] at ht
    obtain ⟨d, hd⟩ := ht
    rw [eval, hd]
    exact (hasShape_scalar _).ends
  | quadForm =>
    obtain ⟨hs, rfl, rfl⟩ := shape?_quadForm h
    exact ends_form? hx hy hs

namespace Variadic

variable {op : Variadic}

omit [Field K] in
/-- One step of many: the sum of two stacked dimensions is the true one. -/
theorem ends_combine? (h : op.shape? s [t] = .ok r) (hx : x.HasShape s) (hy : y.HasShape t) :
    Ends (op.combine? x y) r := by
  have hr := shape?_pair h
  cases op with
  | vstack =>
    obtain ⟨hcols, hrows, hr⟩ := hr
    exact ends_above? hx hy hcols hrows hr
  | hstack =>
    obtain ⟨hrows, hcols, hr⟩ := hr
    exact ends_beside? hx hy hrows hcols hr
  | maximum => exact Grid.ends_combine? max hx hy hr
  | minimum => exact Grid.ends_combine? min hx hy hr

omit [Field K] in
/-- All steps, by induction on the grids with the shape so far. -/
theorem ends_eval {ys : List (Grid K)} {ts : List Shape} (h : op.shape? s ts = .ok r)
    (hx : x.HasShape s) (hys : List.Forall₂ HasShape ys ts) : Ends (op.eval x ys) r := by
  induction hys generalizing x s with
  | nil => exact shape?_nil h ▸ hx.ends
  | @cons y t ys ts hy _ ih =>
    obtain ⟨u, hu, hrest⟩ := shape?_cons h
    rw [eval, List.foldlM_cons]
    exact (ends_combine? hu hx hy).bind fun z hz => ih hrest hz

end Variadic

/-! ## Expressions -/

namespace Expr

variable (F) (ρ : Valuation K)

theorem exists_evals {xs : List Expr} (h : ∀ x ∈ xs, Ends (x.eval F ρ) x.shape) :
    ∃ ys, evals F ρ xs = some ys ∧ List.Forall₂ HasShape ys (xs.map shape) := by
  induction xs with
  | nil => exact ⟨[], rfl, .nil⟩
  | cons x xs ih =>
    obtain ⟨y, hy, hshape⟩ := h x List.mem_cons_self
    obtain ⟨ys, hys, hshapes⟩ := ih fun z hz => h z (List.mem_cons_of_mem x hz)
    exact ⟨y :: ys, by rw [evals, hy, hys]; rfl, .cons hshape hshapes⟩

theorem ends_eval {e : Expr} (hv : e.Everywhere IsValid) :
    Ends (e.eval F ρ) e.shape := by
  induction e with
  | var v => exact ⟨_, rfl, rfl, rfl⟩
  | const id v => exact ⟨_, rfl, rfl, rfl⟩
  | unary label op x ih =>
    obtain ⟨hroot, hx⟩ := everywhere_unary.1 hv
    exact (ih hx).bind fun a ha => Unary.ends_eval (isValid_unary.1 hroot).2 ha
  | binary label op x y ihx ihy =>
    obtain ⟨hroot, hx, hy⟩ := everywhere_binary.1 hv
    exact (ihx hx).bind fun a ha => (ihy hy).bind fun b hb =>
      Binary.ends_eval (isValid_binary.1 hroot) ha hb
  | variadic label op x xs ihx ihxs =>
    obtain ⟨hroot, hargs⟩ := everywhere_variadic.1 hv
    obtain ⟨bs, hbs, hshapes⟩ := exists_evals F ρ fun y hy =>
      ihxs y hy (hargs y (List.mem_cons_of_mem x hy))
    rw [eval, hbs, shape, shapes_eq_map]
    exact (ihx (hargs x List.mem_cons_self)).bind fun a ha =>
      Variadic.ends_eval (isValid_variadic.1 hroot) ha hshapes

/-- What the builders make can be evaluated wherever every variable has its declared shape, and the
value has as many rows and columns as the inferred shape. -/
theorem eval_succeeds {e : Expr} (he : e.Built) (hf : e.Everywhere FitsWord) :
    ∃ x, e.eval F ρ = some x ∧ x.rows = e.shape.rows.toNat ∧ x.cols = e.shape.cols.toNat := by
  obtain ⟨x, hx, hshape⟩ := ends_eval F ρ (he.isValid hf)
  exact ⟨x, hx, hshape.rows, hshape.cols⟩

end Expr

end Evaluation

/-! ### Two columns side by side -/

namespace Expr

/-- A matrix of two rows and three columns at a column, and a number added to both entries. -/
def shifted : Expr :=
  binary none .add
    (binary none .matmul (var ⟨0, { shape := ⟨2, 3⟩ }⟩) (var ⟨1, { shape := .vector 3 }⟩))
    (var ⟨2, {}⟩)

theorem built_shifted : shifted.Built := by
  have hmatrix : (var ⟨0, { shape := ⟨2, 3⟩ }⟩).Built := .var _
  exact (hmatrix.binary .matmul (.var ⟨1, { shape := .vector 3 }⟩) rfl).binary .add (.var ⟨2, {}⟩) rfl

/-- The column next to its square root, one below the other. -/
def stacked : Expr := flatten (variadic none .hstack shifted [shifted.sqrt])

theorem exists_stacked : stacked.Built ∧ stacked.Everywhere FitsWord ∧
    ∃ x, stacked.eval (⟨id, id, id, id, fun _ => id⟩ : Functions ℚ) (fun _ _ _ => 1) = some x ∧
      x.rows = 4 ∧ x.cols = 1 := by
  have hstack : (variadic none .hstack shifted [shifted.sqrt]).Built := by
    have hargs : ∀ x ∈ [shifted, shifted.sqrt], x.Built :=
      List.forall_mem_cons.2 ⟨built_shifted,
        List.forall_mem_singleton.2 (.unary (f := .sqrt) built_shifted rfl)⟩
    exact .apply hargs (rfl : apply (.variadic .hstack) _ = _)
  have hbuilt : stacked.Built := .unary (f := .flatten) hstack rfl
  have hfits : stacked.Everywhere FitsWord := by
    unfold Everywhere
    decide
  exact ⟨hbuilt, hfits, eval_succeeds _ _ hbuilt hfits⟩

/-- Dimensions that do not go together have no value. -/
example {K : Type*} [Field K] [LinearOrder K] (F : Functions K) (ρ : Valuation K) :
    (binary none .add (var ⟨0, { shape := .vector 2 }⟩) (var ⟨1, { shape := .vector 3 }⟩)).eval F ρ =
      none := rfl

end Expr

end DisciplinedConvex
