import Mathlib.Algebra.GroupWithZero.Nat
import DisciplinedConvex.Session.Step

/-! # Expressions from the builders

* `Expr.nodes` are all subexpressions, and `Expr.Everywhere` says something of each of them.
* `Expr.Built` are the expressions that the builders make of leaves. An expression that is held
  gets a label, which changes nothing else.
* `Expr.IsValid` says that the application at the root passes its check. The builders without a
  check make valid applications too, as long as the sizes fit in a word (`Expr.FitsWord`):
  `Expr.Built.isValid`.
-/

namespace DisciplinedConvex
set_option autoImplicit false

namespace Expr

/-! ## Subexpressions -/

mutual

/-- The expression itself and the nodes of its arguments. -/
def nodes : Expr → List Expr
  | var v => [var v]
  | const id v => [const id v]
  | unary label op x => unary label op x :: x.nodes
  | binary label op x y => binary label op x y :: (x.nodes ++ y.nodes)
  | variadic label op x xs => variadic label op x xs :: (x.nodes ++ nodesOf xs)

/-- The nodes of a list of expressions. -/
def nodesOf : List Expr → List Expr
  | [] => []
  | x :: xs => x.nodes ++ nodesOf xs

end

@[simp] theorem nodesOf_eq_flatMap (xs : List Expr) : nodesOf xs = xs.flatMap nodes := by
  induction xs with
  | nil => rfl
  | cons x xs ih => simp [nodesOf, ih]

theorem nodes_eq (e : Expr) : e.nodes = e :: e.args.flatMap nodes := by
  cases e <;> simp [nodes, args]

theorem self_mem_nodes (e : Expr) : e ∈ e.nodes := by
  rw [nodes_eq]
  exact List.mem_cons_self

def Everywhere (P : Expr → Prop) (e : Expr) : Prop := ∀ y ∈ e.nodes, P y

section Everywhere

variable {P Q : Expr → Prop}

theorem everywhere_iff {e : Expr} :
    e.Everywhere P ↔ P e ∧ ∀ x ∈ e.args, x.Everywhere P := by
  unfold Everywhere
  rw [nodes_eq]
  simp only [List.mem_cons, List.mem_flatMap, forall_eq_or_imp]
  refine and_congr_right fun _ => ⟨fun h x hx y hy => h y ⟨x, hx, hy⟩, ?_⟩
  rintro h y ⟨x, hx, hy⟩
  exact h x hx y hy

theorem everywhere_var {v : Variable} : (var v).Everywhere P ↔ P (var v) := by
  rw [everywhere_iff]
  simp [args]

theorem everywhere_const {id : Nat} {v : Value} :
    (const id v).Everywhere P ↔ P (const id v) := by
  rw [everywhere_iff]
  simp [args]

theorem everywhere_unary {label : Option Nat} {op : Unary} {x : Expr} :
    (unary label op x).Everywhere P ↔ P (unary label op x) ∧ x.Everywhere P := by
  rw [everywhere_iff]
  simp [args]

theorem everywhere_binary {label : Option Nat} {op : Binary} {x y : Expr} :
    (binary label op x y).Everywhere P ↔
      P (binary label op x y) ∧ x.Everywhere P ∧ y.Everywhere P := by
  rw [everywhere_iff]
  simp [args]

theorem everywhere_variadic {label : Option Nat} {op : Variadic} {x : Expr} {xs : List Expr} :
    (variadic label op x xs).Everywhere P ↔
      P (variadic label op x xs) ∧ ∀ y ∈ x :: xs, y.Everywhere P :=
  everywhere_iff

theorem Everywhere.self {e : Expr} (h : e.Everywhere P) : P e := h e e.self_mem_nodes

/-- What is handed down to the arguments is true of every node. -/
theorem Everywhere.of_args (hstep : ∀ e, P e → ∀ x ∈ e.args, P x) {e : Expr} (h : P e) :
    e.Everywhere P := by
  induction e with
  | var v => exact everywhere_var.2 h
  | const id v => exact everywhere_const.2 h
  | unary label op x ih => exact everywhere_unary.2 ⟨h, ih (hstep _ h x List.mem_cons_self)⟩
  | binary label op x y ihx ihy =>
    have hy : y ∈ (binary label op x y).args := List.mem_cons_of_mem _ List.mem_cons_self
    exact everywhere_binary.2 ⟨h, ihx (hstep _ h x List.mem_cons_self), ihy (hstep _ h y hy)⟩
  | variadic label op x xs ihx ihxs =>
    refine everywhere_variadic.2 ⟨h, List.forall_mem_cons.2 ⟨?_, fun y hy => ?_⟩⟩
    · exact ihx (hstep _ h x List.mem_cons_self)
    · exact ihxs y hy (hstep _ h y (List.mem_cons_of_mem _ hy))

end Everywhere

/-! ## The builders -/

/-- The same expression under another label. Leaves have none. -/
def withLabel (label : Option Nat) : Expr → Expr
  | var v => var v
  | const id v => const id v
  | unary _ op x => unary label op x
  | binary _ op x y => binary label op x y
  | variadic _ op x xs => variadic label op x xs

/-- What the builders make of leaves. Every builder of two or more arguments, and every one with a
parameter, ends in `apply`. -/
inductive Built : Expr → Prop where
  | var (v : Variable) : Built (var v)
  | const (id : Nat) (v : Value) : Built (const id v)
  | apply {atom : Atom} {args : List Expr} {e : Expr} (hargs : ∀ x ∈ args, Built x)
    (h : apply atom args = .ok e) : Built e
  | unary {f : UnaryBuilder} {x e : Expr} (hx : Built x) (h : f.build x = .ok e) : Built e
  | entry {x e : Expr} (hx : Built x) (h : e ∈ x.entries) : Built e
  | held {e : Expr} (h : Built e) (label : Option Nat) : Built (e.withLabel label)

theorem Built.binary (op : Binary) {x y e : Expr} (hx : x.Built) (hy : y.Built)
    (h : Expr.apply (.binary op) [x, y] = .ok e) : e.Built :=
  .apply (List.forall_mem_cons.2 ⟨hx, List.forall_mem_singleton.2 hy⟩) h

/-! ## Sizes in a word -/

/-- The true number of entries fits in a word. -/
def FitsWord (e : Expr) : Prop := e.shape.count < UInt64.size

instance (e : Expr) : Decidable e.FitsWord := Nat.decLt _ _

/-! ## Valid applications -/

def IsValid (e : Expr) : Prop := ∀ atom, e.atom? = some atom → ∃ s, validate atom e.args = .ok s

end Expr

theorem Unary.shape_eq {op : Unary} {s t : Shape} (h : op.shape? s = .ok t) : op.shape s = t := by
  cases op
  case reshape target =>
    simp only [shape?] at h
    split at h
    · split at h
      · cases h
        rfl
      · cases h
    · cases h
  all_goals
    unfold shape
    simp only [h]
    rfl

theorem Binary.shape_eq {op : Binary} {a b t : Shape} (h : op.shape? a b = .ok t) :
    op.shape a b = t := by
  unfold shape
  rw [h]
  rfl

theorem Variadic.shape_eq {op : Variadic} {first t : Shape} {rest : List Shape}
    (h : op.shape? first rest = .ok t) : op.shape first rest = t := by
  unfold shape
  rw [h]
  rfl

/-- The builders of relations end in the difference of the two sides, or in a cone. -/
theorem Relation.of_build {r : Relation} {x y : Expr} {c : Constraint} (h : r.build x y = .ok c) :
    match r with
    | eq => ∃ e, x.sub y = .ok e ∧ c = .zero e
    | leq => ∃ e, y.sub x = .ok e ∧ c = .nonneg e
    | geq => ∃ e, x.sub y = .ok e ∧ c = .nonneg e
    | soc => x.shape.isScalar = true ∧ c = .cone x y := by
  have hmap : ∀ {z : Except Error Expr} {f : Expr → Constraint}, z.map f = .ok c →
      ∃ e, z = .ok e ∧ c = f e := by
    intro z f hz
    cases z <;> cases hz
    exact ⟨_, rfl, rfl⟩
  cases r with
  | eq => exact hmap h
  | leq => exact hmap h
  | geq => exact hmap h
  | soc =>
    simp only [build, Constraint.soc] at h
    split at h
    case isTrue hscalar =>
      cases h
      exact ⟨hscalar, rfl⟩
    case isFalse => cases h

namespace Expr

theorem mapError_eq_ok {α β γ : Type} {f : α → β} {x : Except α γ} {s : γ} :
    x.mapError f = .ok s ↔ x = .ok s := by
  cases x with
  | error fault => exact iff_of_false (nomatch ·) (nomatch ·)
  | ok t => exact iff_of_eq ((Except.ok.injEq t s).trans (Except.ok.injEq t s).symm)

theorem mapError_eq_error {α β γ : Type} {f : α → β} {x : Except α γ} {b : β} :
    x.mapError f = .error b ↔ ∃ a, x = .error a ∧ f a = b := by
  cases x with
  | error a =>
    constructor
    · rintro ⟨⟩
      exact ⟨a, rfl, rfl⟩
    · rintro ⟨_, ⟨⟩, rfl⟩
      rfl
  | ok t =>
    constructor
    · rintro ⟨⟩
    · rintro ⟨_, ⟨⟩, -⟩

theorem isValid_unary {label : Option Nat} {op : Unary} {x : Expr} :
    (unary label op x).IsValid ↔
      op.checkParameter = .ok () ∧ op.shape? x.shape = .ok (op.shape x.shape) := by
  have hshape : (∃ s, op.shape? x.shape = .ok s) ↔ op.shape? x.shape = .ok (op.shape x.shape) :=
    ⟨fun ⟨s, hs⟩ => by rw [hs, Unary.shape_eq hs], fun h => ⟨_, h⟩⟩
  simp only [IsValid, atom?, args, Option.some.injEq, forall_eq', validate, List.map_cons,
    List.map_nil, Atom.validate]
  rw [← hshape]
  cases h : op.checkParameter with
  | error fault =>
    refine ⟨?_, fun h => nomatch h.1⟩
    rintro ⟨s, hs⟩
    cases hs
  | ok u =>
    have hcheck : (Except.ok u : Except DomainFault Unit) = .ok () := rfl
    simp only [hcheck, true_and]
    exact exists_congr fun s => mapError_eq_ok

theorem isValid_binary {label : Option Nat} {op : Binary} {x y : Expr} :
    (binary label op x y).IsValid ↔
      op.shape? x.shape y.shape = .ok (op.shape x.shape y.shape) := by
  simp only [IsValid, atom?, args, Option.some.injEq, forall_eq', validate, List.map_cons,
    List.map_nil, Atom.validate, mapError_eq_ok]
  refine ⟨?_, fun h => ⟨_, h⟩⟩
  rintro ⟨s, hs⟩
  rw [hs, Binary.shape_eq hs]

theorem isValid_variadic {label : Option Nat} {op : Variadic} {x : Expr} {xs : List Expr} :
    (variadic label op x xs).IsValid ↔
      op.shape? x.shape (xs.map shape) = .ok (op.shape x.shape (xs.map shape)) := by
  simp only [IsValid, atom?, args, Option.some.injEq, forall_eq', validate, List.map_cons,
    Atom.validate]
  refine ⟨?_, fun h => ⟨_, h⟩⟩
  rintro ⟨s, hs⟩
  rw [hs, Variadic.shape_eq hs]

/-- A leaf has no check to pass. -/
theorem isValid_of_atom?_eq_none {e : Expr} (h : e.atom? = none) : e.IsValid := by
  intro atom ha
  rw [h] at ha
  cases ha

theorem of_apply_eq_ok {atom : Atom} {args : List Expr} {e : Expr} (h : apply atom args = .ok e) :
    e.atom? = some atom ∧ e.args = args ∧ ∃ s, validate atom args = .ok s := by
  have hmap : ∀ {x : Except Error Shape} {y : Expr},
      (x.map fun _ => y) = .ok e → e = y ∧ ∃ s, x = .ok s := by
    intro x y hxy
    cases x with
    | error fault => cases hxy
    | ok s =>
      cases hxy
      exact ⟨rfl, s, rfl⟩
  unfold apply at h
  split at h
  · obtain ⟨rfl, hs⟩ := hmap h
    exact ⟨rfl, rfl, hs⟩
  · obtain ⟨rfl, hs⟩ := hmap h
    exact ⟨rfl, rfl, hs⟩
  · obtain ⟨rfl, hs⟩ := hmap h
    exact ⟨rfl, rfl, hs⟩
  · cases h

/-! ### Builders without a check -/

theorem toNat_size {s : Shape} (h : s.count < UInt64.size) : s.size.toNat = s.count := by
  unfold Shape.size
  rw [UInt64.toNat_ofNat']
  have hmod : 2 ^ 64 = UInt64.size := rfl
  rw [hmod, Nat.mod_eq_of_lt] <;> omega

/-- The one builder without a check that can make an application which does not pass it: the entries
are counted in a word. -/
theorem isValid_flatten {x : Expr} : x.flatten.IsValid ↔ x.shape.count < UInt64.size := by
  rw [flatten, isValid_unary]
  constructor
  · rintro ⟨-, h⟩
    refine Decidable.byContradiction fun hcount => ?_
    simp [Unary.shape?, Shape.checkedSize?, hcount] at h
  · intro h
    have hcount : (Shape.vector x.shape.size).count = x.shape.count := by
      unfold Shape.vector Shape.count
      rw [toNat_size h]
      exact Nat.mul_one _
    refine ⟨rfl, ?_⟩
    unfold Unary.shape?
    simp [Shape.checkedSize?, hcount, h, Unary.shape]

theorem single_fits {i n : UInt64} (h : i < n) :
    (Span.single i).isEmpty = false ∧ (Span.single i).stop ≤ n := by
  have hi := UInt64.lt_iff_toNat_lt.1 h
  have hn := n.toNat_lt
  have hsize : UInt64.size = 2 ^ 64 := rfl
  have hsucc : (i + 1).toNat = i.toNat + 1 := by
    rw [UInt64.toNat_add, UInt64.toNat_one, Nat.mod_eq_of_lt]
    omega
  unfold Span.single Span.isEmpty
  rw [if_pos (by omega)]
  simp only [Bool.not_eq_false', decide_eq_true_eq, UInt64.lt_iff_toNat_lt,
    UInt64.le_iff_toNat_le, hsucc]
  omega

theorem length_single {i n : UInt64} (h : i < n) : (Span.single i).length = 1 := by
  have hstart : (Span.single i).start < (Span.single i).stop := by
    simpa [Span.isEmpty] using (single_fits h).1
  rw [Span.length, if_pos hstart]
  unfold Span.single at hstart ⊢
  split at hstart
  case isTrue hi => rw [if_pos hi, UInt64.add_comm, UInt64.add_sub_cancel]
  case isFalse => exact absurd hstart (UInt64.lt_irrefl i)

theorem shape?_entry {x e : Expr} (h : e ∈ x.entries) :
    ∃ selection, e = unary none (.index selection) x ∧
      (Unary.index selection).shape? x.shape = .ok .scalar := by
  unfold entries at h
  simp only [List.mem_flatMap, List.mem_map, List.mem_range] at h
  obtain ⟨j, hj, i, hi, rfl⟩ := h
  refine ⟨_, rfl, ?_⟩
  have hlt : ∀ {k : Nat} {n : UInt64}, k < n.toNat → UInt64.ofNat k < n := by
    intro k n hk
    rw [UInt64.lt_iff_toNat_lt, UInt64.toNat_ofNat', Nat.mod_eq_of_lt (Nat.lt_trans hk n.toNat_lt)]
    exact hk
  have hfits : (Selection.element (.ofNat i) (.ofNat j)).fits x.shape = true := by
    obtain ⟨hr, hrows⟩ := single_fits (hlt hi)
    obtain ⟨hc, hcols⟩ := single_fits (hlt hj)
    simp [Selection.fits, Selection.element, hr, hc, hrows, hcols]
  rw [Unary.shape?, if_pos hfits, Selection.shape, Selection.element, length_single (hlt hi),
    length_single (hlt hj)]
  rfl

theorem isValid_entry {x e : Expr} (h : e ∈ x.entries) : e.IsValid ∧ e.args = [x] := by
  obtain ⟨selection, rfl, hs⟩ := shape?_entry h
  exact ⟨isValid_unary.2 ⟨rfl, by rw [hs, Unary.shape_eq hs]⟩, rfl⟩

theorem isValid_of_apply_eq_ok {atom : Atom} {args : List Expr} {e : Expr}
    (h : apply atom args = .ok e) : e.IsValid := by
  obtain ⟨hatom, rfl, hs⟩ := of_apply_eq_ok h
  intro a ha
  rw [hatom] at ha
  cases ha
  exact hs

theorem args_build {f : UnaryBuilder} {x e : Expr} (h : f.build x = .ok e) : e.args = [x] := by
  cases f
  case trace => exact (@of_apply_eq_ok (.unary .trace) [x] e h).2.1
  case diag => exact (@of_apply_eq_ok (.unary .diag) [x] e h).2.1
  all_goals
    cases h
    rfl

theorem isValid_build {f : UnaryBuilder} {x e : Expr} (hx : x.FitsWord) (h : f.build x = .ok e) :
    e.IsValid := by
  cases f
  case trace => exact @isValid_of_apply_eq_ok (.unary .trace) [x] e h
  case diag => exact @isValid_of_apply_eq_ok (.unary .diag) [x] e h
  case flatten =>
    cases h
    exact isValid_flatten.2 hx
  all_goals
    cases h
    exact isValid_unary.2 ⟨rfl, rfl⟩

@[simp] theorem args_withLabel (label : Option Nat) (e : Expr) :
    (e.withLabel label).args = e.args := by
  cases e <;> rfl

theorem fitsWord_withLabel {label : Option Nat} {e : Expr} :
    (e.withLabel label).FitsWord ↔ e.FitsWord := by
  cases e <;> rfl

theorem isValid_withLabel {label : Option Nat} {e : Expr} :
    (e.withLabel label).IsValid ↔ e.IsValid := by
  cases e <;> rfl

/-- Every node of what the builders make passes its check. -/
theorem Built.isValid {e : Expr} (hb : e.Built) (hf : e.Everywhere FitsWord) :
    e.Everywhere IsValid := by
  induction hb with
  | var v => exact everywhere_iff.2 ⟨isValid_of_atom?_eq_none rfl, fun x hx => nomatch hx⟩
  | const id v => exact everywhere_iff.2 ⟨isValid_of_atom?_eq_none rfl, fun x hx => nomatch hx⟩
  | apply _ h ih =>
    obtain ⟨-, rfl, -⟩ := of_apply_eq_ok h
    have hargs := (everywhere_iff.1 hf).2
    exact everywhere_iff.2 ⟨isValid_of_apply_eq_ok h, fun x hx => ih x hx (hargs x hx)⟩
  | unary _ h ih =>
    rw [everywhere_iff, args_build h] at hf ⊢
    simp only [List.mem_singleton, forall_eq] at hf ⊢
    exact ⟨isValid_build hf.2.self h, ih hf.2⟩
  | entry _ h ih =>
    obtain ⟨hv, hargs⟩ := isValid_entry h
    rw [everywhere_iff, hargs] at hf ⊢
    simp only [List.mem_singleton, forall_eq] at hf ⊢
    exact ⟨hv, ih hf.2⟩
  | held _ label ih =>
    rw [everywhere_iff, args_withLabel] at hf ⊢
    rw [fitsWord_withLabel] at hf
    rw [isValid_withLabel]
    exact everywhere_iff.1 (ih (everywhere_iff.2 hf))

end Expr

end DisciplinedConvex
