import DisciplinedConvex.Proofs.Reach

/-! # Unchecked builders make what the check would have made

A checked application gets its shape from the check. A builder without a check writes the shape down
itself.

* `Expr.Made` relates an expression to the shape that comes with it when a builder other than
  `Expr.flatten` makes it.
* `Expr.Made.validate` says that the check comes to the same shape, and
  `Expr.apply_eq_of_validate` that the checked application is the same expression.
* `Expr.apply_agrees_of_reaches` puts them together for every node below an expression.
-/

namespace DisciplinedConvex
set_option autoImplicit false

/-- The shape that a builder without a check writes down, from the shape of its argument. -/
def UnaryBuilder.writtenShape? (f : UnaryBuilder) (s : Shape) : Option Shape :=
  match f with
  | neg | abs | pos | negPart | square | sqrt | exp | log | entropy => some s
  | transpose => some s.transpose
  | flatten => some (.vector s.size)
  | sum | norm1 | norm2 | normInf | normFro | sumSquares => some .scalar
  | trace | diag => none

namespace Expr

/-- A builder other than `flatten` makes the expression with the shape. -/
inductive Made : Expr → Shape → Prop where
  | checked {atom : Atom} {args : List Expr} {e : Expr} {s : Shape} (hargs : ∀ x ∈ args, x.Built)
    (hs : Expr.validate atom args = .ok s) (h : apply atom args = .ok e) : Made e s
  | unchecked {f : UnaryBuilder} {x e : Expr} {s : Shape} (hx : x.Built) (hf : f ≠ .flatten)
    (hs : f.writtenShape? x.shape = some s) (h : f.build x = .ok e) : Made e s
  | entry {x e : Expr} (hx : x.Built) (h : e ∈ x.entries) : Made e .scalar
  | held {e : Expr} {s : Shape} (h : Made e s) (label : Option Nat) : Made (e.withLabel label) s

/-! ## Labels -/

section Label

variable (label other : Option Nat) (e : Expr)

@[simp] theorem atom?_withLabel : (e.withLabel label).atom? = e.atom? := by
  cases e <;> rfl

@[simp] theorem shape_withLabel : (e.withLabel label).shape = e.shape := by
  cases e <;> rfl

@[simp] theorem attributes_withLabel : (e.withLabel label).attributes = e.attributes := by
  cases e <;> rfl

@[simp] theorem text_withLabel : (e.withLabel label).text = e.text := by
  cases e <;> rfl

@[simp] theorem withLabel_withLabel : (e.withLabel other).withLabel label = e.withLabel label := by
  cases e <;> rfl

end Label

/-! ## What a check that passes says of a node -/

section Validate

variable {e : Expr} {atom : Atom} {s : Shape}

theorem validate_unary {op : Unary} {x : Expr} (hp : op.checkParameter = .ok ())
    (hs : op.shape? x.shape = .ok s) : validate (.unary op) [x] = .ok s := by
  simp only [validate, List.map_cons, List.map_nil, Atom.validate, hp]
  exact mapError_eq_ok.2 hs

theorem shape_eq_of_validate (ha : e.atom? = some atom) (h : validate atom e.args = .ok s) :
    e.shape = s := by
  cases e with
  | var v => cases ha
  | const id v => cases ha
  | unary label op x =>
    cases ha
    have hvalid : (unary label op x).IsValid := by
      rintro _ ⟨⟩
      exact ⟨s, h⟩
    obtain ⟨hp, hs⟩ := isValid_unary.1 hvalid
    have hboth := (validate_unary hp hs).symm.trans h
    cases hboth
    rfl
  | binary label op x y =>
    cases ha
    exact Binary.shape_eq (mapError_eq_ok.1 h)
  | variadic label op x xs =>
    cases ha
    rw [shape, shapes_eq_map]
    exact Variadic.shape_eq h

theorem apply_eq_of_validate (ha : e.atom? = some atom) (h : validate atom e.args = .ok s) :
    apply atom e.args = .ok (e.withLabel none) := by
  cases e with
  | var v => cases ha
  | const id v => cases ha
  | unary label op x =>
    cases ha
    simp only [args] at h ⊢
    rw [apply, h]
    rfl
  | binary label op x y =>
    cases ha
    simp only [args] at h ⊢
    rw [apply, h]
    rfl
  | variadic label op x xs =>
    cases ha
    simp only [args] at h ⊢
    rw [apply, h]
    rfl

theorem arity_accepts (ha : e.atom? = some atom) : atom.arity.accepts e.args.length = true := by
  cases e with
  | var v => cases ha
  | const id v => cases ha
  | unary label op x =>
    cases ha
    rfl
  | binary label op x y =>
    cases ha
    rfl
  | variadic label op x xs =>
    cases ha
    exact decide_eq_true (Nat.le_add_left 1 xs.length)

end Validate

/-! ## Builders -/

/-- The atom of a builder without a check accepts every shape, and has the shape written down. -/
theorem shape?_written {f : UnaryBuilder} {x e : Expr} {s : Shape} (hf : f ≠ .flatten)
    (hs : f.writtenShape? x.shape = some s) (h : f.build x = .ok e) :
    ∃ op, e = unary none op x ∧ op.checkParameter = .ok () ∧ op.shape? x.shape = .ok s := by
  cases f
  case trace => cases hs
  case diag => cases hs
  case flatten => exact absurd rfl hf
  all_goals
    cases hs
    cases h
    exact ⟨_, rfl, rfl, rfl⟩

theorem apply_of_not_written {f : UnaryBuilder} {x e : Expr} (hs : f.writtenShape? x.shape = none)
    (h : f.build x = .ok e) : ∃ op, apply (.unary op) [x] = .ok e := by
  cases f
  case trace => exact ⟨.trace, h⟩
  case diag => exact ⟨.diag, h⟩
  all_goals cases hs

theorem Made.validate {e : Expr} {s : Shape} (h : e.Made s) {atom : Atom}
    (ha : e.atom? = some atom) : Expr.validate atom e.args = .ok s := by
  induction h with
  | checked _ hs h =>
    obtain ⟨hatom, rfl, -⟩ := of_apply_eq_ok h
    cases hatom.symm.trans ha
    exact hs
  | unchecked _ hf hs h =>
    obtain ⟨op, rfl, hp, hs⟩ := shape?_written hf hs h
    cases ha
    exact validate_unary hp hs
  | entry _ h =>
    obtain ⟨selection, rfl, hs⟩ := shape?_entry h
    cases ha
    exact validate_unary rfl hs
  | held _ label ih =>
    rw [atom?_withLabel] at ha
    rw [args_withLabel]
    exact ih ha

/-- What is built is a leaf, or made by some builder other than `flatten`, or by `flatten`. -/
theorem Built.made_or_flatten {e : Expr} (he : e.Built) (hatom : e.atom? ≠ none) :
    (∃ s, e.Made s) ∨
      ∃ (x : Expr) (label : Option Nat), x.Built ∧ e = x.flatten.withLabel label := by
  have happly : ∀ {atom : Atom} {args : List Expr} {e : Expr}, (∀ x ∈ args, x.Built) →
      Expr.apply atom args = .ok e → ∃ s, e.Made s := by
    intro atom args e hargs h
    obtain ⟨-, -, s, hs⟩ := of_apply_eq_ok h
    exact ⟨s, .checked hargs hs h⟩
  induction he with
  | var v => exact absurd rfl hatom
  | const id v => exact absurd rfl hatom
  | apply hargs h => exact .inl (happly hargs h)
  | @unary f x e hx h =>
    -- A builder that writes no shape down ends in a checked application.
    cases hs : f.writtenShape? x.shape with
    | none =>
      obtain ⟨op, h⟩ := apply_of_not_written hs h
      exact .inl (happly (List.forall_mem_singleton.2 hx) h)
    | some s =>
      by_cases hf : f = .flatten
      · subst hf
        cases h
        exact .inr ⟨x, none, hx, rfl⟩
      · exact .inl ⟨s, .unchecked hx hf hs h⟩
  | entry hx h => exact .inl ⟨_, .entry hx h⟩
  | held _ label ih =>
    rw [atom?_withLabel] at hatom
    rcases ih hatom with ⟨s, hs⟩ | ⟨x, other, hx, rfl⟩
    · exact .inl ⟨s, .held hs label⟩
    · exact .inr ⟨x, label, hx, withLabel_withLabel label other _⟩

theorem Built.of_mem_args {e : Expr} (he : e.Built) : ∀ x ∈ e.args, x.Built := by
  induction he with
  | var v => exact fun _ hx => nomatch hx
  | const id v => exact fun _ hx => nomatch hx
  | apply hargs h =>
    obtain ⟨-, rfl, -⟩ := of_apply_eq_ok h
    exact hargs
  | unary hx h =>
    rw [args_build h]
    exact List.forall_mem_singleton.2 hx
  | entry hx h =>
    rw [(isValid_entry h).2]
    exact List.forall_mem_singleton.2 hx
  | held _ label ih =>
    rw [args_withLabel]
    exact ih

theorem Built.of_reaches {e y : Expr} (he : e.Built) (hy : e.Reaches y) : y.Built :=
  hy.keep (fun _ h => h.of_mem_args) he

/-- Applied again to the same arguments, the atom of a node that `flatten` did not make passes its
check and makes a node with the shape that was written down, and the same sign, curvature and text;
so it is at every node below what the builders make. -/
theorem apply_agrees_of_reaches {e y : Expr} (he : e.Built) (hy : e.Reaches y) {atom : Atom}
    (ha : y.atom? = some atom) :
    (∀ s, y.Made s → ∃ z, apply atom y.args = .ok z ∧ z.shape = s ∧ y.shape = s ∧
      z.sign = y.sign ∧ z.curvature = y.curvature ∧ z.text = y.text ∧
      atom.arity.accepts y.args.length = true) ∧
    ((∃ s, y.Made s) ∨
      ∃ (x : Expr) (label : Option Nat), x.Built ∧ y = x.flatten.withLabel label) := by
  have hatom : y.atom? ≠ none := by
    rw [ha]
    exact (nomatch ·)
  refine ⟨fun s hs => ?_, (he.of_reaches hy).made_or_flatten hatom⟩
  have hvalid := hs.validate ha
  have hshape : y.shape = s := shape_eq_of_validate ha hvalid
  have hattributes := attributes_withLabel none y
  exact ⟨y.withLabel none, apply_eq_of_validate ha hvalid, (shape_withLabel none y).trans hshape,
    hshape, congrArg Attributes.sign hattributes, congrArg Attributes.curvature hattributes,
    text_withLabel none y, arity_accepts ha⟩

/-! ### A column that is too long -/

def huge : Expr := var ⟨0, { shape := ⟨0x8000000000000000, 2⟩ }⟩

/-- The entries of the column are too many for a word, so that the reshape does not pass its check.
The negation of it does. -/
theorem apply_agrees_neg_huge :
    ¬ huge.flatten.IsValid ∧ huge.flatten.neg.sum.Reaches huge.flatten.neg ∧
    ∃ z, apply (.unary .neg) [huge.flatten] = .ok z ∧ z.shape = ⟨0xFFFFFFFFFFFFFFFF, 1⟩ ∧
      z.text = huge.flatten.neg.text := by
  have hflatten : huge.flatten.Built := .unary (f := .flatten) (.var _) rfl
  have hneg : huge.flatten.neg.Built := .unary (f := .neg) hflatten rfl
  have hsum : huge.flatten.neg.sum.Built := .unary (f := .sum) hneg rfl
  have hmade : huge.flatten.neg.Made ⟨0xFFFFFFFFFFFFFFFF, 1⟩ :=
    .unchecked (f := .neg) hflatten (nomatch ·) (by decide +kernel) rfl
  have hreaches : huge.flatten.neg.sum.Reaches huge.flatten.neg := .single List.mem_cons_self
  have hcount : ¬ huge.shape.count < UInt64.size := by decide +kernel
  have hatom : huge.flatten.neg.atom? = some (.unary .neg) := rfl
  obtain ⟨z, hz, hshape, -, -, -, htext, -⟩ :=
    (apply_agrees_of_reaches hsum hreaches hatom).1 _ hmade
  exact ⟨mt isValid_flatten.1 hcount, hreaches, z, hz, hshape, htext⟩

end Expr

end DisciplinedConvex
