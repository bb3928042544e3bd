import DisciplinedConvex.Expr.Text
import DisciplinedConvex.Proofs.Built
import DisciplinedConvex.Proofs.Storage.Negation

/-! # Numbers stored as matrices

A constant number may be stored as such, or as a dense matrix of one entry.

* `Value.boxed` goes from the first to the second, and `Expr.boxed` does so at the leaves with
  chosen ids.
* The builders do not look at the storage: they accept the same arguments and end in the same error
  (`Expr.apply_boxed`, `Expr.build_boxed`, `Expr.entries_boxed`).
* Shape, sign and text of the constant stay. Its definiteness stays unless it is zero, because a
  factorisation asks for a positive pivot (`Value.definiteness_boxed`).
* `Expr.boxed_agrees` says what follows for all nodes of an expression.
-/

namespace DisciplinedConvex
set_option autoImplicit false

/-! ## Values -/

namespace Value

/-- A number as a matrix of one entry. -/
def boxed : Value → Value
  | scalar v => dense (.filled .scalar v)
  | v => v

def isZeroNumber : Value → Bool
  | scalar v => v == 0
  | _ => false

@[simp] theorem shape_boxed (v : Value) : v.boxed.shape = v.shape := by
  cases v <;> rfl

@[simp] theorem text_boxed (v : Value) : v.boxed.text = v.text := by
  cases v <;> rfl

theorem all?_boxed (v : Value) (p : Float → Bool) : v.boxed.all? p = v.all? p := by
  cases v with
  | scalar v => simp [boxed, all?, DenseMatrix.all, DenseMatrix.filled, Shape.scalar]
  | dense m => rfl
  | sparse m => rfl

@[simp] theorem sign_boxed (v : Value) : v.boxed.sign = v.sign := by
  simp only [sign, sign?, all?_boxed]

theorem hasFactor_single (v : Float) :
    (DenseMatrix.filled .scalar v).hasFactor = !(v == 0 || !(v ≥ 0)) := by
  change (if v == 0 || !(v ≥ 0) then false else true) = _
  cases v == 0 || !decide (v ≥ 0) <;> rfl

theorem hasFactor_single_negate (v : Float) :
    (DenseMatrix.filled .scalar v).negate.hasFactor = !(v == 0 || !(v ≤ 0)) := by
  have hnegate : (DenseMatrix.filled .scalar v).negate = .filled .scalar (-v) := by
    simp [DenseMatrix.negate, DenseMatrix.filled]
  have hle : decide (-v ≥ 0) = decide (v ≤ 0) := decide_eq_decide.2 (Number.zero_le_neg_iff v)
  rw [hnegate, hasFactor_single, Number.neg_beq_zero, hle]

theorem definiteness_single (v : Float) : (dense (.filled .scalar v)).definiteness =
    if (DenseMatrix.filled .scalar v).hasFactor then .positive
    else if (DenseMatrix.filled .scalar v).negate.hasFactor then .negative else .neither := by
  have htest : (dense (.filled .scalar v)).isPositive? =
      some (DenseMatrix.filled .scalar v).hasFactor := by rfl
  unfold isPositive? at htest
  unfold definiteness definitenessBy
  rw [htest]
  cases (DenseMatrix.filled .scalar v).hasFactor <;> rfl

theorem definiteness_scalar (v : Float) :
    (scalar v).definiteness = if v ≥ 0 then .positive else if v ≤ 0 then .negative else .neither := by
  unfold definiteness definitenessBy isPositiveBy?
  by_cases h : v ≥ 0 <;> simp [h]

theorem definiteness_of_isZeroNumber {v : Value} (h : v.isZeroNumber = true) :
    v.definiteness = .positive := by
  cases v with
  | dense m => cases h
  | sparse m => cases h
  | scalar v => rw [definiteness_scalar, if_pos (Number.zero_le_of_beq_zero h)]

/-- A factorisation does not find out that zero is semidefinite. -/
theorem definiteness_boxed (v : Value) :
    v.boxed.definiteness = if v.isZeroNumber then .neither else v.definiteness := by
  cases v with
  | dense m => rfl
  | sparse m => rfl
  | scalar v =>
    rw [boxed, definiteness_single, definiteness_scalar, hasFactor_single, hasFactor_single_negate,
      isZeroNumber]
    by_cases hzero : (v == 0) = true
    · simp [hzero]
    · simp [hzero]

end Value

namespace Expr

/-! ## Expressions -/

mutual

/-- The numbers at the chosen leaves stored as matrices. -/
def boxed (p : Nat → Bool) : Expr → Expr
  | var v => var v
  | const id v => const id (if p id then v.boxed else v)
  | unary label op x => unary label op (x.boxed p)
  | binary label op x y => binary label op (x.boxed p) (y.boxed p)
  | variadic label op x xs => variadic label op (x.boxed p) (boxedAll p xs)

/-- The same for a list of expressions. -/
def boxedAll (p : Nat → Bool) : List Expr → List Expr
  | [] => []
  | x :: xs => x.boxed p :: boxedAll p xs

end

variable {p : Nat → Bool} {e : Expr}

@[simp] theorem boxedAll_eq_map (p : Nat → Bool) (xs : List Expr) :
    boxedAll p xs = xs.map (boxed p) := by
  induction xs with
  | nil => rfl
  | cons x xs ih => simp [boxedAll, ih]

@[simp] theorem args_boxed (p : Nat → Bool) (e : Expr) :
    (e.boxed p).args = e.args.map (boxed p) := by
  cases e <;> simp [boxed, args]

theorem boxed_withLabel (p : Nat → Bool) (label : Option Nat) (e : Expr) :
    (e.withLabel label).boxed p = (e.boxed p).withLabel label := by
  cases e <;> rfl

theorem nodes_boxed (p : Nat → Bool) (e : Expr) :
    (e.boxed p).nodes = e.nodes.map (boxed p) := by
  induction e with
  | var v => rfl
  | const id v => rfl
  | unary label op x ih => simp [boxed, nodes, ih]
  | binary label op x y ihx ihy => simp [boxed, nodes, ihx, ihy]
  | variadic label op x xs ihx ihxs =>
    simp only [boxed, boxedAll_eq_map, nodes, nodesOf_eq_flatMap, List.map_cons, List.map_append,
      List.flatMap_map, List.map_flatMap, ihx]
    rw [List.flatMap_congr fun y hy => ihxs y hy]

@[simp] theorem shape_boxed (p : Nat → Bool) (e : Expr) : (e.boxed p).shape = e.shape := by
  induction e with
  | var v => rfl
  | const id v =>
    rw [boxed, shape, shape]
    split
    · exact v.shape_boxed
    · rfl
  | unary label op x ih => rw [boxed, shape, shape, ih]
  | binary label op x y ihx ihy => rw [boxed, shape, shape, ihx, ihy]
  | variadic label op x xs ihx ihxs =>
    have hxs : xs.map (shape ∘ boxed p) = xs.map shape := List.map_congr_left ihxs
    simp only [boxed, boxedAll_eq_map, shape, shapes_eq_map, List.map_map, ihx, hxs]

theorem binding_boxed (p : Nat → Bool) (e : Expr) : (e.boxed p).binding = e.binding := by
  cases e <;> rfl

@[simp] theorem text_boxed (p : Nat → Bool) (e : Expr) : (e.boxed p).text = e.text := by
  induction e with
  | var v => rfl
  | const id v =>
    rw [boxed, text, text]
    split
    · exact v.text_boxed
    · rfl
  | unary label op x ih => rw [boxed, text, text, ih, binding_boxed]
  | binary label op x y ihx ihy => rw [boxed, text, text, ihx, ihy, binding_boxed, binding_boxed]
  | variadic label op x xs ihx ihxs =>
    have hxs : xs.map (text ∘ boxed p) = xs.map text := List.map_congr_left ihxs
    simp only [boxed, boxedAll_eq_map, text, texts_eq_map, List.map_map, ihx, hxs]

/-! ### Builders -/

theorem validate_boxed (p : Nat → Bool) (atom : Atom) (args : List Expr) :
    validate atom (args.map (boxed p)) = validate atom args := by
  simp only [validate, List.map_map, Function.comp_def, shape_boxed]

/-- An application is accepted as before, or fails the same check. -/
theorem apply_boxed (p : Nat → Bool) (atom : Atom) (args : List Expr) :
    apply atom (args.map (boxed p)) = (apply atom args).map (boxed p) := by
  have hmap : ∀ (r : Except Error Shape) (e : Expr),
      (r.map fun _ => e.boxed p) = (r.map fun _ => e).map (boxed p) := by
    intro r e
    cases r <;> rfl
  match atom, args with
  | .unary op, [x] =>
    have hvalid := validate_boxed p (.unary op) [x]
    exact (congrArg (Except.map _) hvalid).trans (hmap _ (unary none op x))
  | .binary op, [x, y] =>
    have hvalid := validate_boxed p (.binary op) [x, y]
    exact (congrArg (Except.map _) hvalid).trans (hmap _ (binary none op x y))
  | .variadic op, x :: xs =>
    have hvalid := validate_boxed p (.variadic op) (x :: xs)
    have hroot := hmap (validate (.variadic op) (x :: xs)) (variadic none op x xs)
    rw [boxed, boxedAll_eq_map] at hroot
    exact (congrArg (Except.map _) hvalid).trans hroot
  | .unary op, [] => rfl
  | .binary op, [] => rfl
  | .variadic op, [] => rfl
  | .binary op, [x] => rfl
  | .unary op, x :: y :: rest => simp [apply, Except.map]
  | .binary op, x :: y :: z :: rest => simp [apply, Except.map]

theorem build_boxed (p : Nat → Bool) (f : UnaryBuilder) (x : Expr) :
    f.build (x.boxed p) = (f.build x).map (boxed p) := by
  cases f
  case trace => exact apply_boxed p (.unary .trace) [x]
  case diag => exact apply_boxed p (.unary .diag) [x]
  case flatten =>
    simp only [UnaryBuilder.build, flatten, shape_boxed]
    rfl
  all_goals rfl

theorem entries_boxed (p : Nat → Bool) (x : Expr) :
    (x.boxed p).entries = x.entries.map (boxed p) := by
  simp only [entries, shape_boxed, List.map_flatMap, List.map_map]
  rfl

theorem Built.boxed (p : Nat → Bool) (h : e.Built) : (e.boxed p).Built := by
  induction h with
  | var v => exact .var v
  | const id v => exact .const id _
  | @apply atom args e _ h ih =>
    refine @Built.apply atom _ _ (List.forall_mem_map.2 ih) ?_
    rw [apply_boxed, h]
    rfl
  | @unary f x e _ h ih =>
    refine .unary (f := f) ih ?_
    rw [build_boxed, h]
    rfl
  | entry _ h ih =>
    refine .entry ih ?_
    rw [entries_boxed]
    exact List.mem_map_of_mem h
  | held _ label ih =>
    rw [boxed_withLabel]
    exact .held ih label

/-! ### Signs and curvatures -/

/-- A quadratic form of a chosen zero, of an argument that is not known to be zero or that is
affine. -/
def IsZeroForm (p : Nat → Bool) : Expr → Prop
  | binary _ .quadForm x (const id v) =>
    p id = true ∧ v.isZeroNumber = true ∧ (x.sign ≠ .zero ∨ x.curvature = .affine)
  | _ => False

/-- What is inferred of a quadratic form, from the definiteness of a constant matrix. -/
theorem attributes_quadForm {a b : Attributes} (hb : b.curvature = .constant) (v : Value) :
    Binary.quadForm.attributes a b (some v) =
      ⟨if a.sign.isZero then .zero else v.definiteness.sign,
        if a.curvature.isConstant then .constant
        else if a.curvature.isAffine then v.definiteness.curvature else .unknown⟩ := by
  have hcompose : v.definiteness.curvature.compose
      [(.nonmonotonic, a.curvature, a.sign), (.nonmonotonic, .constant, b.sign)] =
      if a.curvature.isConstant then .constant
      else if a.curvature.isAffine then v.definiteness.curvature else .unknown := by
    cases a.curvature <;> cases v.definiteness <;> rfl
  rw [← hcompose, ← hb]
  rfl

theorem attributes_quadForm_boxed {a b b' : Attributes} (hb : b.curvature = .constant)
    (hb' : b'.curvature = .constant) (v : Value) :
    Binary.quadForm.attributes a b' (some v.boxed) = Binary.quadForm.attributes a b (some v) ↔
      ¬ (v.isZeroNumber = true ∧ (a.sign ≠ .zero ∨ a.curvature = .affine)) := by
  rw [attributes_quadForm hb, attributes_quadForm hb', Value.definiteness_boxed]
  by_cases hzero : v.isZeroNumber = true
  · rw [if_pos hzero, Value.definiteness_of_isZeroNumber hzero]
    cases a with
    | mk sign curvature => cases sign <;> cases curvature <;> simp [hzero] <;> decide
  · simp [hzero]

/-- Between arguments of which the same is inferred, the application at the root is the only place
where something can change. -/
theorem attributes_root_iff {label : Option Nat} {op : Binary} {x y : Expr}
    (hx : (x.boxed p).attributes = x.attributes) (hy : (y.boxed p).attributes = y.attributes) :
    ((binary label op x y).boxed p).attributes = (binary label op x y).attributes ↔
      ¬ (binary label op x y).IsZeroForm p := by
  rw [boxed, attributes, attributes, hx, hy]
  cases op with
  | quadForm =>
    cases y with
    | const id v =>
      by_cases hp : p id = true
      · rw [boxed, if_pos hp, IsZeroForm, and_iff_right hp]
        exact attributes_quadForm_boxed rfl rfl v
      · rw [boxed, if_neg hp]
        exact iff_of_true rfl fun h => hp h.1
    | _ => exact iff_of_true rfl id
  | _ => exact iff_of_true rfl id

/-- By induction on the expression. -/
theorem attributes_boxed_iff (p : Nat → Bool) (e : Expr) :
    e.Everywhere (fun y => (y.boxed p).attributes = y.attributes) ↔
      e.Everywhere fun y => ¬ y.IsZeroForm p := by
  induction e with
  | var v => exact iff_of_true (everywhere_var.2 rfl) (everywhere_var.2 id)
  | const id v =>
    refine iff_of_true (everywhere_const.2 ?_) (everywhere_const.2 fun h => h)
    rw [boxed, attributes, attributes]
    split
    · rw [Value.sign_boxed]
    · rfl
  | unary label op x ih =>
    rw [everywhere_unary, everywhere_unary, ih]
    refine and_congr_left fun h => iff_of_true ?_ id
    rw [boxed, attributes, attributes, (ih.2 h).self]
  | binary label op x y ihx ihy =>
    rw [everywhere_binary, everywhere_binary, ihx, ihy]
    exact and_congr_left fun h => attributes_root_iff (ihx.2 h.1).self (ihy.2 h.2).self
  | variadic label op x xs ihx ihxs =>
    have hargs : ∀ y ∈ x :: xs, y.Everywhere (fun y => (y.boxed p).attributes = y.attributes) ↔
        y.Everywhere fun y => ¬ y.IsZeroForm p := List.forall_mem_cons.2 ⟨ihx, ihxs⟩
    rw [everywhere_variadic, everywhere_variadic, forall₂_congr hargs]
    refine and_congr_left fun h => iff_of_true ?_ id
    have hsame : ∀ y ∈ x :: xs, (y.boxed p).attributes = y.attributes :=
      fun y hy => ((hargs y hy).2 (h y hy)).self
    have hxs : xs.map (attributes ∘ boxed p) = xs.map attributes :=
      List.map_congr_left fun y hy => hsame y (List.mem_cons_of_mem x hy)
    simp only [boxed, boxedAll_eq_map, attributes, attributesOf_eq_map, List.map_map, hxs,
      hsame x List.mem_cons_self]

/-- The same calls of the builders on numbers that are stored as matrices. They are accepted or end
in the same error, and make the same tree. Every node keeps its shape and its text, and all nodes
keep their sign and curvature if and only if there is no quadratic form of a zero among them. -/
theorem boxed_agrees (p : Nat → Bool) :
    (∀ atom args, apply atom (args.map (boxed p)) = (apply atom args).map (boxed p)) ∧
    (∀ (f : UnaryBuilder) (x : Expr), f.build (x.boxed p) = (f.build x).map (boxed p)) ∧
    (∀ x : Expr, (x.boxed p).entries = x.entries.map (boxed p)) ∧
    ∀ e : Expr, (e.boxed p).nodes = e.nodes.map (boxed p) ∧
      (∀ y ∈ e.nodes, (y.boxed p).shape = y.shape ∧ (y.boxed p).text = y.text) ∧
      ((∀ y ∈ e.nodes, (y.boxed p).sign = y.sign ∧ (y.boxed p).curvature = y.curvature) ↔
        ∀ y ∈ e.nodes, ¬ y.IsZeroForm p) := by
  refine ⟨apply_boxed p, build_boxed p, entries_boxed p, fun e => ⟨nodes_boxed p e, ?_, ?_⟩⟩
  · exact fun y _ => ⟨y.shape_boxed p, y.text_boxed p⟩
  · have hparts : ∀ a b : Attributes, a.sign = b.sign ∧ a.curvature = b.curvature ↔ a = b :=
      fun a b => ⟨fun h => by cases a; cases b; simp_all, fun h => h ▸ ⟨rfl, rfl⟩⟩
    simp only [sign, curvature, hparts]
    exact attributes_boxed_iff p e

/-! ### The form of zero -/

def flat : Expr := binary none .quadForm (var ⟨0, {}⟩) (const 1 (.scalar 0))

/-- Zero is positive semidefinite as a number, and neither definite as a matrix. -/
theorem flat_boxed :
    flat.Built ∧ flat.IsZeroForm (· == 1) ∧
    flat.sign = .positive ∧ flat.curvature = .convex ∧
    (flat.boxed (· == 1)).sign = .unknown ∧ (flat.boxed (· == 1)).curvature = .unknown := by
  have hboxed : (flat.boxed (· == 1)).attributes = ⟨.unknown, .unknown⟩ := by
    change Binary.quadForm.attributes _ _ (some (Value.boxed (.scalar 0))) = _
    rw [attributes_quadForm rfl, Value.definiteness_boxed]
    rfl
  refine ⟨?_, ⟨rfl, rfl, .inr rfl⟩, rfl, rfl, ?_, ?_⟩
  · exact (Built.var ⟨0, {}⟩).binary .quadForm (.const 1 (.scalar 0)) rfl
  · rw [sign, hboxed]
  · rw [curvature, hboxed]

end Expr

end DisciplinedConvex
