import DisciplinedConvex.Proofs.Built
import DisciplinedConvex.Proofs.Printing.Parameter

/-! # Legible expressions

* `Expr.IsLegible` says of a node that its name is an identifier or its parameters pass their
  checks; a constant is not legible.
* `Expr.Form` lists what such a node is printed as, with how tightly that binds.
* The pieces of an expression with legible nodes only have no stray brackets
  (`Expr.proper_pieces`).
-/

namespace DisciplinedConvex
set_option autoImplicit false

open Piece

/-! ## Names -/

namespace Text

/-- A letter; every character beyond ASCII counts as one. -/
def isLetter (c : Char) : Bool := c.isAlpha || 128 ≤ c.toNat

def isNameChar (c : Char) : Bool := isLetter c || c.isDigit || c == '_'

/-- A letter, and then letters, digits and underscores. -/
def isIdentifier (s : String) : Bool :=
  match s.toList with
  | [] => false
  | c :: rest => isLetter c && rest.all isNameChar

theorem isNameChar_of_mem {s : String} (h : isIdentifier s = true) {c : Char} (hc : c ∈ s.toList) :
    isNameChar c = true := by
  unfold isIdentifier at h
  match hs : s.toList, hc with
  | d :: rest, hc =>
    rw [hs, Bool.and_eq_true, List.all_eq_true] at h
    rcases List.mem_cons.1 hc with rfl | hc
    · rw [isNameChar, h.1]
      rfl
    · exact h.2 c hc

theorem toList_ne_nil {s : String} (h : isIdentifier s = true) : s.toList ≠ [] := by
  intro hs
  rw [isIdentifier, hs] at h
  cases h

end Text

theorem Atom.isIdentifier_name (a : Atom) : Text.isIdentifier a.name = true := by
  cases a with
  | unary op => cases op <;> simp only [name, Unary.name] <;> rfl
  | binary op => cases op <;> rfl
  | variadic op => cases op <;> rfl

/-! ## Forms of expressions -/

namespace Expr

/-- Its name is an identifier, or its parameters pass their checks. -/
def IsLegible : Expr → Prop
  | var v => Text.isIdentifier v.name = true
  | const _ _ => False
  | unary _ op _ => op.IsChecked
  | _ => True

/-- What an expression is printed as, and how tightly that binds. -/
inductive Form : Expr → Nat → Prop where
  | leaf (v : Variable) (hname : Text.isIdentifier v.name = true) : Form (var v) Binding.leaf
  | sum (label : Option Nat) (x y : Expr) : Form (binary label .add x y) Binding.sum
  | product (label : Option Nat) (op : Binary) (x y : Expr) (hop : op = .mul ∨ op = .matmul) :
    Form (binary label op x y) Binding.product
  | negation (label : Option Nat) (x : Expr) : Form (unary label .neg x) Binding.negation
  | transposed (label : Option Nat) (x : Expr) :
    Form (unary label .transpose x) Binding.postfixed
  | indexed (label : Option Nat) (selection : Selection) (x : Expr) (hs : selection.Nonempty) :
    Form (unary label (.index selection) x) Binding.postfixed
  | call (e : Expr) (a : Atom) (hatom : e.atom? = some a) (hchecked : a.IsChecked)
    (hpieces : e.pieces = Piece.call a.name (e.args.map pieces ++ a.params)) :
    Form e Binding.call

theorem IsLegible.form {e : Expr} (h : e.IsLegible) : e.Form e.binding := by
  cases e with
  | var v => exact .leaf v h
  | const id v => exact h.elim
  | unary label op x =>
    cases op
    case neg => exact .negation label x
    case transpose => exact .transposed label x
    case index selection => exact .indexed label selection x h
    all_goals exact .call _ (.unary _) rfl h rfl
  | binary label op x y =>
    cases op
    case add => exact .sum label x y
    case mul => exact .product label _ x y (.inl rfl)
    case matmul => exact .product label _ x y (.inr rfl)
    all_goals exact .call _ (.binary _) rfl trivial rfl
  | variadic label op x xs =>
    refine .call _ (.variadic op) rfl trivial ?_
    simp [pieces, args, Atom.params, Atom.name]

/-- To prove something of every expression, prove it of one whose arguments have it. -/
theorem args_induction {motive : Expr → Prop}
    (step : ∀ e, (∀ x ∈ e.args, motive x) → motive e) (e : Expr) : motive e := by
  induction e with
  | var v => exact step _ fun x hx => nomatch hx
  | const id v => exact step _ fun x hx => nomatch hx
  | unary label op x ih => exact step _ (List.forall_mem_singleton.2 ih)
  | binary label op x y ihx ihy =>
    exact step _ (List.forall_mem_cons.2 ⟨ihx, List.forall_mem_singleton.2 ihy⟩)
  | variadic label op x xs ihx ihxs => exact step _ (List.forall_mem_cons.2 ⟨ihx, ihxs⟩)

theorem exists_form {e : Expr} (he : e.Everywhere IsLegible) : ∃ n, e.binding = n ∧ e.Form n :=
  ⟨_, rfl, he.self.form⟩

end Expr

/-! ## No stray brackets -/

theorem Text.notMem_marks {c : Char} (h : isNameChar c = true) : c ∉ Bracket.marks := by
  intro hc
  simp only [Bracket.marks, List.mem_cons, List.not_mem_nil, or_false] at hc
  rcases hc with rfl | rfl | rfl | rfl <;> cases h

namespace Piece

theorem Proper.operand {ps : List Piece} (h : Proper ps) (binding least : Nat) :
    Proper (operand ps binding least) := by
  unfold Piece.operand
  split
  · exact .singleton h
  · exact h

theorem Proper.negated {ps : List Piece} (h : Proper ps) (binding : Nat) :
    Proper (negated ps binding) := by
  unfold Piece.negated
  split
  · exact .singleton h
  · exact h

theorem Proper.intercalate {sep : List Piece} (hsep : Proper sep) {parts : List (List Piece)}
    (h : ∀ p ∈ parts, Proper p) : Proper (sep.intercalate parts) := by
  induction parts with
  | nil => exact .nil
  | cons p parts ih =>
    rw [List.forall_mem_cons] at h
    cases parts with
    | nil =>
      rw [List.intercalate_singleton]
      exact h.1
    | cons q parts =>
      rw [List.intercalate_cons_cons]
      exact (h.1.append hsep).append (ih h.2)

theorem Proper.name {s : String} (h : Text.isIdentifier s = true) : Proper (Piece.plain s.toList) :=
  .plain fun _ hc => Text.notMem_marks (Text.isNameChar_of_mem h hc)

theorem Proper.call {name : String} (hname : Text.isIdentifier name = true)
    {parts : List (List Piece)} (h : ∀ p ∈ parts, Proper p) : Proper (Piece.call name parts) := by
  have hcomma : Proper (Piece.plain [',', ' ']) := .plain (by simp [Bracket.marks])
  exact (Proper.name hname).append (.singleton (.intercalate hcomma h))

end Piece

theorem Expr.proper_pieces {e : Expr} (he : e.Everywhere IsLegible) : Proper e.pieces := by
  induction e using args_induction with
  | step e ih =>
    have harg : ∀ x ∈ e.args, Proper x.pieces := fun x hx => ih x hx ((everywhere_iff.1 he).2 x hx)
    obtain ⟨n, hn, hform⟩ := exists_form he
    cases hform with
    | leaf v hname => exact .name hname
    | sum label x y =>
      have hmark : Proper (plain [' ', '+', ' ']) := .plain (by simp [Bracket.marks])
      exact ((Proper.operand (harg x (by simp [args])) _ _).append hmark).append
        (.operand (harg y (by simp [args])) _ _)
    | product label op x y hop =>
      have hmark : Proper (plain [' ', op.mark, ' ']) := by
        rcases hop with rfl | rfl <;> exact .plain (by simp [Binary.mark, Bracket.marks])
      rw [pieces, Binary.pieces_product hop]
      exact ((Proper.operand (harg x (by simp [args])) _ _).append hmark).append
        (.operand (harg y (by simp [args])) _ _)
    | negation label x => exact .char (by decide) (.negated (harg x (by simp [args])) _)
    | transposed label x =>
      have hmark : Proper (plain ['.', 'T']) := .plain (by simp [Bracket.marks])
      exact (Proper.operand (harg x (by simp [args])) _ _).append hmark
    | indexed label selection x hs =>
      exact (Proper.operand (harg x (by simp [args])) _ _).append selection.proper_pieces
    | call _ a hatom hchecked hpieces =>
      rw [hpieces]
      refine .call a.isIdentifier_name fun p hp => ?_
      rcases List.mem_append.1 hp with hp | hp
      · obtain ⟨x, hx, rfl⟩ := List.mem_map.1 hp
        exact harg x hx
      · exact Atom.proper_params hchecked hp

end DisciplinedConvex
