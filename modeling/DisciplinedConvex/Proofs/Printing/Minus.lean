import DisciplinedConvex.Problem
import DisciplinedConvex.Proofs.Arguments.Outcome
import DisciplinedConvex.Proofs.Printing.Legible

/-! # Minus signs in print

* `Text.Apart` says of a text that no two minus signs stand next to each other in it. At any other
  character such a text can be cut and put together again (`Text.apart_append_cons`).
* A number has a minus sign in front or none at all (`Number.minus_notMem_tail`), so that constants
  in every storage have their signs apart (`Value.apart_text`).
* `Unary.apart_text_iff` and `Binary.apart_text_iff` go through the forms that an application is
  printed in. Only a negation sets a minus sign before something, and looks first at what comes to
  stand there.
* `Expr.minus_signs_apart`: the signs in print are apart exactly if they are in the names.
-/

namespace DisciplinedConvex
set_option autoImplicit false

namespace Text

/-- No two minus signs stand next to each other. -/
def Apart (s : List Char) : Prop := ¬ ['-', '-'] <:+: s

section Apart

variable {c : Char} {s t : List Char}

theorem Apart.of_notMem (h : '-' ∉ s) : Apart s :=
  fun hdouble => h (hdouble.subset List.mem_cons_self)

@[simp] theorem apart_nil : Apart [] := .of_notMem List.not_mem_nil

theorem apart_cons : Apart (c :: s) ↔ ¬ (c = '-' ∧ ['-'] <+: s) ∧ Apart s := by
  rw [Apart, List.infix_cons_iff, List.cons_prefix_cons, not_or, eq_comm]
  rfl

@[simp] theorem apart_cons_of_ne (hc : c ≠ '-') : Apart (c :: s) ↔ Apart s := by
  rw [apart_cons]
  exact and_iff_right fun h => hc h.1

theorem Apart.of_tail (h : '-' ∉ s.tail) : Apart s := by
  cases s with
  | nil => exact apart_nil
  | cons c s => exact apart_cons.2 ⟨fun hs => h (hs.2.subset List.mem_cons_self), .of_notMem h⟩

@[simp] theorem apart_append_cons (hc : c ≠ '-') : Apart (s ++ c :: t) ↔ Apart s ∧ Apart t := by
  induction s with
  | nil => exact (apart_cons_of_ne hc).trans (and_iff_right apart_nil).symm
  | cons d s ih =>
    have hstart : ['-'] <+: s ++ c :: t ↔ ['-'] <+: s := by
      cases s with
      | nil => simp [hc.symm]
      | cons d s => simp
    rw [List.cons_append, apart_cons, apart_cons, ih, hstart, and_assoc]

theorem apart_intercalate {parts : List (List Char)} :
    Apart ([',', ' '].intercalate parts) ↔ ∀ p ∈ parts, Apart p := by
  induction parts with
  | nil => exact iff_of_true apart_nil (List.forall_mem_nil _)
  | cons p parts ih =>
    rw [List.forall_mem_cons, ← ih]
    cases parts with
    | nil => simp
    | cons q parts =>
      rw [List.intercalate_cons_cons]
      simp

theorem apart_digits (n : Nat) : Apart (Nat.toDigits 10 n) :=
  .of_notMem fun h => absurd (Nat.isDigit_of_mem_toDigits (by decide) (by decide) h) (by decide)

theorem apart_word (n : UInt64) : Apart (toString n).toList := by
  rw [toList_toString_word]
  exact apart_digits _

end Apart

end Text

open Text

/-! ## Constants -/

namespace Number

theorem tail_mark_append_suffix (s : Float.Model.UnpackedFloat.Sign) (digits : String) :
    (text.mark s ++ digits).toList.tail <:+ digits.toList := by
  rw [String.toList_append]
  cases s with
  | positive => exact List.tail_suffix _
  | negative => exact List.suffix_refl _

/-- Nothing but the first character of a number can be a minus sign. -/
theorem minus_notMem_tail (v : Float) : '-' ∉ (text v).toList.tail := by
  have hmark : ∀ s {digits : String}, '-' ∉ digits.toList →
      '-' ∉ (text.mark s ++ digits).toList.tail :=
    fun s digits hdigits h => hdigits ((tail_mark_append_suffix s digits).subset h)
  unfold text
  split
  case h_1 => decide
  case h_2 s _ => exact hmark s (by decide)
  case h_3 s _ => exact hmark s (by decide)
  case h_4 s m e _ _ =>
    refine hmark s fun h => ?_
    rcases Decimal.mem_text h with hdigit | hpoint
    · exact absurd hdigit (by decide)
    · exact absurd hpoint (by decide)

theorem apart_text (v : Float) : Apart (text v).toList := .of_tail (minus_notMem_tail v)

end Number

theorem DenseMatrix.apart_text (m : DenseMatrix) : Apart m.text.toList := by
  have hbracket : ∀ {parts : List String}, (∀ p ∈ parts, Apart p.toList) →
      Apart (text.bracket parts).toList := by
    intro parts h
    simpa [text.bracket, apart_intercalate] using h
  unfold text
  split
  case isTrue => exact Number.apart_text _
  case isFalse =>
    refine hbracket (List.forall_mem_map.2 fun i _ => ?_)
    exact hbracket (List.forall_mem_map.2 fun j _ => Number.apart_text _)

theorem SparseMatrix.apart_text (m : SparseMatrix) : Apart m.text.toList := by
  simp [text, apart_word, apart_digits]

theorem Value.apart_text (v : Value) : Apart v.text.toList := by
  cases v with
  | scalar v => exact Number.apart_text v
  | dense m => exact m.apart_text
  | sparse m => exact m.apart_text

/-! ## Applications -/

theorem Shape.apart_text (s : Shape) : Apart s.text.toList := by
  simp [text, apart_word]

theorem Span.apart_text (s : Span) : Apart s.text.toList := by
  refine .of_notMem fun h => ?_
  rcases mem_text h with hdigit | hcolon
  · exact absurd hdigit (by decide)
  · exact absurd hcolon (by decide)

namespace Printed

variable {x : Printed}

theorem apart_parenthesized {s : String} : Apart (parenthesized s).toList ↔ Apart s.toList := by
  simp [parenthesized]

@[simp] theorem apart_operand {least : Nat} :
    Apart (x.operand least).toList ↔ Apart x.text.toList := by
  unfold operand
  split
  · exact apart_parenthesized
  · rfl

/-- Either a bracket comes after the minus sign, or a text that has been looked at. -/
theorem apart_negated : Apart ('-' :: x.negated.toList) ↔ Apart x.text.toList := by
  unfold negated
  split
  case isTrue =>
    rw [apart_cons, apart_parenthesized]
    exact and_iff_right (by simp [parenthesized])
  case isFalse hlooked =>
    rw [Bool.or_eq_true, not_or, String.startsWith_string_iff] at hlooked
    rw [apart_cons]
    exact and_iff_right fun hminus => hlooked.2 hminus.2

theorem apart_call {name : String} (hname : '-' ∉ name.toList) {args : List String} :
    Apart (call name args).toList ↔ ∀ a ∈ args, Apart a.toList := by
  simp [call, parenthesized, Apart.of_notMem hname, apart_intercalate]

end Printed

theorem Atom.minus_notMem_name (a : Atom) : '-' ∉ a.name.toList := fun h =>
  absurd (isNameChar_of_mem a.isIdentifier_name h) (by decide)

theorem Unary.apart_text_iff (op : Unary) {x : Printed} :
    Apart (op.text x).toList ↔ Apart x.text.toList := by
  have hcall : ∀ {args}, Apart (Printed.call op.name args).toList ↔ ∀ a ∈ args, Apart a.toList :=
    Printed.apart_call (Atom.unary op).minus_notMem_name
  cases op
  case neg => simpa [text] using Printed.apart_negated
  case transpose => simp [text]
  case index selection => simp [text, Selection.text, Span.apart_text]
  case reshape target => exact hcall.trans (by simp [target.apart_text])
  case power p => exact hcall.trans (by simp [Number.apart_text])
  all_goals exact hcall.trans List.forall_mem_singleton

theorem Binary.apart_text_iff (op : Binary) {x y : Printed} :
    Apart (op.text x y).toList ↔ Apart x.text.toList ∧ Apart y.text.toList := by
  have hcall : Apart (Printed.call op.name [x.text, y.text]).toList ↔
      Apart x.text.toList ∧ Apart y.text.toList :=
    (Printed.apart_call (Atom.binary op).minus_notMem_name).trans (by simp)
  cases op
  case quadOverLin => exact hcall
  case quadForm => exact hcall
  all_goals simp [text]

/-! ## Names -/

theorem Variable.apart_name {v : Variable} : Apart v.name.toList ↔
    ∀ name, v.declaration.name? = some name → Apart name.toList := by
  unfold name
  cases v.declaration.name? with
  | some name => simp
  | none => simp [apart_digits]

namespace Expr

/-- No declared name has two minus signs next to each other. -/
def NamesApart (e : Expr) : Prop :=
  ∀ v ∈ e.leaves, ∀ name, v.declaration.name? = some name → Apart name.toList

theorem namesApart_var {v : Variable} : (var v).NamesApart ↔
    ∀ name, v.declaration.name? = some name → Apart name.toList :=
  List.forall_mem_singleton

theorem namesApart_binary {label : Option Nat} {op : Binary} {x y : Expr} :
    (binary label op x y).NamesApart ↔ x.NamesApart ∧ y.NamesApart :=
  List.forall_mem_append

theorem namesApart_variadic {label : Option Nat} {op : Variadic} {x : Expr} {xs : List Expr} :
    (variadic label op x xs).NamesApart ↔ ∀ y ∈ x :: xs, y.NamesApart := by
  simp only [NamesApart, leaves, leavesOf_eq_flatMap, ← List.flatMap_cons, List.mem_flatMap,
    forall_exists_index, and_imp]
  exact ⟨fun h y hy v hv => h v y hy hv, fun h v y hy hv => h y hy v hv⟩

theorem apart_text_iff {e : Expr} : Apart e.text.toList ↔ e.NamesApart := by
  induction e with
  | var v => exact Variable.apart_name.trans namesApart_var.symm
  | const id v => exact iff_of_true v.apart_text (List.forall_mem_nil _)
  | unary label op x ih => exact op.apart_text_iff.trans ih
  | binary label op x y ihx ihy =>
    exact op.apart_text_iff.trans ((and_congr ihx ihy).trans namesApart_binary.symm)
  | variadic label op x xs ihx ihxs =>
    have hname : '-' ∉ op.name.toList := (Atom.variadic op).minus_notMem_name
    rw [namesApart_variadic, text, texts_eq_map, Printed.apart_call hname, ← List.map_cons,
      List.forall_mem_map]
    exact forall₂_congr (List.forall_mem_cons.2 ⟨ihx, ihxs⟩)

end Expr

/-! ## Constraints and objectives -/

namespace Constraint

theorem apart_text_iff {c : Constraint} :
    Apart c.text.toList ↔ ∀ e ∈ c.expressions, e.NamesApart := by
  cases c with
  | zero e => simp [text, expressions, Expr.apart_text_iff]
  | nonneg e => simp [text, expressions, Expr.apart_text_iff]
  | cone t x =>
    rw [text, Printed.apart_call (by decide)]
    simp [expressions, Expr.apart_text_iff]

/-- The names of a difference are those of its two sides. -/
theorem namesApart_of_sub {form : Expr → Constraint} (hform : ∀ e, (form e).expressions = [e])
    {x y : Expr} {c : Constraint} (h : (x.sub y).map form = .ok c) :
    (∀ e ∈ c.expressions, e.NamesApart) ↔ x.NamesApart ∧ y.NamesApart := by
  cases hsub : x.sub y with
  | error fault =>
    rw [hsub] at h
    cases h
  | ok d =>
    rw [hsub] at h
    cases h
    obtain ⟨-, rfl⟩ := Expr.apply_binary_eq_ok_iff.1 hsub
    rw [hform, List.forall_mem_singleton]
    exact Expr.namesApart_binary

theorem namesApart_of_soc {t x : Expr} {c : Constraint} (h : soc t x = .ok c) :
    (∀ e ∈ c.expressions, e.NamesApart) ↔ t.NamesApart ∧ x.NamesApart := by
  unfold soc at h
  split at h
  · cases h
    simp [expressions]
  · cases h

/-- The four ways to make a constraint of two expressions. -/
def IsMadeOf (c : Constraint) (x y : Expr) : Prop :=
  eq x y = .ok c ∨ leq x y = .ok c ∨ geq x y = .ok c ∨ soc x y = .ok c

theorem IsMadeOf.namesApart_iff {c : Constraint} {x y : Expr} (h : c.IsMadeOf x y) :
    (∀ e ∈ c.expressions, e.NamesApart) ↔ x.NamesApart ∧ y.NamesApart := by
  rcases h with h | h | h | h
  · exact namesApart_of_sub (fun _ => rfl) h
  · exact (namesApart_of_sub (fun _ => rfl) h).trans and_comm
  · exact namesApart_of_sub (fun _ => rfl) h
  · exact namesApart_of_soc h

end Constraint

theorem Objective.apart_text_iff {o : Objective} : Apart o.text.toList ↔ o.expr.NamesApart := by
  unfold text
  split <;> simp [Expr.apart_text_iff]

/-- A printed expression has two minus signs next to each other only if a declared name has them,
and so has a constraint or an objective, whether it is taken as it is or made of two expressions.
The numbers in constants may be any, and names may begin and end with a minus sign. -/
theorem Expr.minus_signs_apart :
    (∀ e : Expr, ¬ ['-', '-'] <:+: e.text.toList ↔ e.NamesApart) ∧
    (∀ c : Constraint, ¬ ['-', '-'] <:+: c.text.toList ↔ ∀ e ∈ c.expressions, e.NamesApart) ∧
    (∀ (x y : Expr) (c : Constraint), c.IsMadeOf x y →
      (¬ ['-', '-'] <:+: c.text.toList ↔ x.NamesApart ∧ y.NamesApart)) ∧
    ∀ o : Objective, ¬ ['-', '-'] <:+: o.text.toList ↔ o.expr.NamesApart :=
  ⟨fun _ => apart_text_iff, fun _ => Constraint.apart_text_iff,
    fun _ _ _ h => Constraint.apart_text_iff.trans h.namesApart_iff,
    fun _ => Objective.apart_text_iff⟩

/-! ### A name between minus signs -/

namespace Expr

def dashed : Expr := var ⟨0, { name? := some "-a-" }⟩

/-- The name after two negations, times the negation of a negative number. -/
def dashedProduct : Expr := binary none .mul dashed.neg.neg (const 1 (.scalar (-1))).neg

theorem namesApart_dashed : dashed.NamesApart := by
  rw [dashed, namesApart_var]
  rintro name ⟨⟩
  simp [apart_cons]

theorem minus_signs_apart_dashed :
    dashedProduct.text = "-(-(-a-)) * -(-1)" ∧
    ¬ ['-', '-'] <:+: dashedProduct.text.toList ∧
    (∃ c, Constraint.leq dashedProduct dashed = .ok c ∧ ¬ ['-', '-'] <:+: c.text.toList) ∧
    ¬ ['-', '-'] <:+: (Objective.mk .minimize dashedProduct).text.toList := by
  have hproduct : dashedProduct.NamesApart := namesApart_dashed
  obtain ⟨hexpr, -, hmade, hobjective⟩ := minus_signs_apart
  have hleq : Constraint.leq dashedProduct dashed =
      .ok (.nonneg (binary none .add dashed dashedProduct.neg)) := rfl
  refine ⟨by decide +kernel, (hexpr _).2 hproduct, ⟨_, hleq, ?_⟩, (hobjective _).2 hproduct⟩
  exact (hmade _ _ _ (.inr (.inl hleq))).2 ⟨hproduct, namesApart_dashed⟩

end Expr

end DisciplinedConvex
