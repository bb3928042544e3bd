import DisciplinedConvex.Expr.Text
import DisciplinedConvex.Proofs.Printing.Piece

/-! # Printed expressions cut at their brackets

`Expr.pieces` is the printed expression as a list of pieces: they write out the text
(`Expr.charsOf_pieces`).
-/

namespace DisciplinedConvex
set_option autoImplicit false

/-! ## Pieces -/

namespace Piece

/-- The pieces in a place that asks for a binding strength. -/
def operand (ps : List Piece) (binding least : Nat) : List Piece :=
  if binding < least then [group .round ps] else ps

def opensWith (c : Char) : List Piece → Bool
  | char d :: _ => d == c
  | _ => false

/-- The pieces after a minus sign. -/
def negated (ps : List Piece) (binding : Nat) : List Piece :=
  if binding < Binding.negation || opensWith '-' ps then [group .round ps] else ps

def call (name : String) (parts : List (List Piece)) : List Piece :=
  plain name.toList ++ [group .round ((plain [',', ' ']).intercalate parts)]

end Piece

open Piece

def Shape.pieces (s : Shape) : List Piece :=
  [.group .round (plain (toString s.rows).toList ++ plain [',', ' '] ++
    plain (toString s.cols).toList)]

def Selection.pieces (s : Selection) : List Piece :=
  [.group .square (plain s.rows.text.toList ++ plain [','] ++ plain s.cols.text.toList)]

namespace Unary

/-- What is printed after the argument. -/
def params : Unary → List (List Piece)
  | reshape target => [target.pieces]
  | index selection => [selection.pieces]
  | power p => [plain (Number.text p).toList]
  | _ => []

def pieces (op : Unary) (ps : List Piece) (binding : Nat) : List Piece :=
  match op with
  | neg => .char '-' :: negated ps binding
  | transpose => operand ps binding Binding.call ++ plain ['.', 'T']
  | index selection => operand ps binding Binding.call ++ selection.pieces
  | op => call op.name (ps :: op.params)

end Unary

namespace Binary

/-- The operator between the operands. -/
def mark : Binary → Char
  | mul => '*'
  | matmul => '@'
  | _ => '+'

def pieces (op : Binary) (ps : List Piece) (b : Nat) (qs : List Piece) (c : Nat) : List Piece :=
  match op with
  | add => operand ps b Binding.sum ++ plain [' ', '+', ' '] ++ operand qs c Binding.sum
  | mul => operand ps b Binding.product ++ plain [' ', '*', ' '] ++
    operand qs c (Binding.product + 1)
  | matmul => operand ps b Binding.product ++ plain [' ', '@', ' '] ++
    operand qs c (Binding.product + 1)
  | op => call op.name [ps, qs]

theorem pieces_product {op : Binary} (hop : op = mul ∨ op = matmul) (ps qs : List Piece)
    (b c : Nat) : op.pieces ps b qs c = operand ps b Binding.product ++ plain [' ', op.mark, ' '] ++
      operand qs c (Binding.product + 1) := by
  rcases hop with rfl | rfl <;> rfl

end Binary

namespace Expr

mutual

/-- The printed expression. -/
def pieces : Expr → List Piece
  | var v => plain v.name.toList
  | const _ v => plain v.text.toList
  | unary _ op x => op.pieces x.pieces x.binding
  | binary _ op x y => op.pieces x.pieces x.binding y.pieces y.binding
  | variadic _ op x xs => call op.name (x.pieces :: piecesOf xs)

/-- The printed expressions of a list. -/
def piecesOf : List Expr → List (List Piece)
  | [] => []
  | x :: xs => x.pieces :: piecesOf xs

end

@[simp] theorem piecesOf_eq_map (xs : List Expr) : piecesOf xs = xs.map pieces := by
  induction xs with
  | nil => rfl
  | cons x xs ih => simp [piecesOf, ih]

end Expr

/-! ## The text is what the pieces write out -/

namespace Piece

theorem charsOf_intercalate (sep : List Piece) (parts : List (List Piece)) :
    charsOf (sep.intercalate parts) = (charsOf sep).intercalate (parts.map charsOf) := by
  induction parts with
  | nil => rfl
  | cons x parts ih =>
    cases parts with
    | nil => simp
    | cons y parts =>
      simp only [List.map_cons] at ih ⊢
      rw [List.intercalate_cons_cons, charsOf_append, charsOf_append, ih,
        List.intercalate_cons_cons]

variable {ps qs : List Piece} {x y : Printed}

theorem charsOf_parenthesized {s : String} (h : charsOf ps = s.toList) :
    charsOf [group .round ps] = (Printed.parenthesized s).toList := by
  simp [Printed.parenthesized, h, Bracket.opening, Bracket.closing]

theorem charsOf_operand (h : charsOf ps = x.text.toList) (least : Nat) :
    charsOf (operand ps x.binding least) = (x.operand least).toList := by
  unfold operand Printed.operand
  split
  · exact charsOf_parenthesized h
  · exact h

theorem opensWith_minus (h : charsOf ps = x.text.toList) :
    opensWith '-' ps = x.text.startsWith "-" := by
  have hminus : "-".toList = ['-'] := rfl
  rw [Bool.eq_iff_iff, String.startsWith_string_iff, ← h, hminus]
  match ps with
  | [] => exact iff_of_false Bool.false_ne_true (by simp)
  | .char c :: ps =>
    rw [charsOf_char, List.cons_prefix_cons]
    exact beq_iff_eq.trans ⟨fun hc => ⟨hc.symm, List.nil_prefix⟩, fun hc => hc.1.symm⟩
  | .group b inside :: ps =>
    rw [charsOf_group, List.cons_prefix_cons]
    refine iff_of_false Bool.false_ne_true fun hb => ?_
    cases b <;> exact absurd hb.1 (by decide)

theorem charsOf_negated (h : charsOf ps = x.text.toList) :
    charsOf (negated ps x.binding) = x.negated.toList := by
  unfold negated Printed.negated
  rw [opensWith_minus h]
  split
  · exact charsOf_parenthesized h
  · exact h

theorem charsOf_call (name : String) {parts : List (List Piece)} {texts : List String}
    (h : parts.map charsOf = texts.map String.toList) :
    charsOf (call name parts) = (Printed.call name texts).toList := by
  have hinside : charsOf ((plain [',', ' ']).intercalate parts) =
      (String.intercalate ", " texts).toList := by
    rw [charsOf_intercalate, h, String.toList_intercalate, charsOf_plain]
    rfl
  rw [call, charsOf_append, charsOf_plain, charsOf_parenthesized hinside, Printed.call,
    String.toList_append]

end Piece

theorem Shape.charsOf_pieces (s : Shape) : charsOf s.pieces = s.text.toList := by
  simp [pieces, text, Bracket.opening, Bracket.closing]

theorem Selection.charsOf_pieces (s : Selection) : charsOf s.pieces = s.text.toList := by
  simp [pieces, text, Bracket.opening, Bracket.closing]

theorem Unary.charsOf_pieces (op : Unary) {ps : List Piece} {x : Printed}
    (h : charsOf ps = x.text.toList) : charsOf (op.pieces ps x.binding) = (op.text x).toList := by
  cases op
  case neg => simp [pieces, text, charsOf_negated h]
  case transpose => simp [pieces, text, charsOf_operand h]
  case index selection => simp [pieces, text, charsOf_operand h, selection.charsOf_pieces]
  case reshape target => exact charsOf_call _ (by simp [params, h, target.charsOf_pieces])
  case power p => exact charsOf_call _ (by simp [params, h])
  all_goals exact charsOf_call _ (by simp [params, h])

theorem Binary.charsOf_pieces (op : Binary) {ps qs : List Piece} {x y : Printed}
    (hx : charsOf ps = x.text.toList) (hy : charsOf qs = y.text.toList) :
    charsOf (op.pieces ps x.binding qs y.binding) = (op.text x y).toList := by
  cases op
  case quadOverLin => exact charsOf_call _ (by simp [hx, hy])
  case quadForm => exact charsOf_call _ (by simp [hx, hy])
  all_goals simp [pieces, text, charsOf_operand hx, charsOf_operand hy]

namespace Expr

theorem charsOf_pieces (e : Expr) : charsOf e.pieces = e.text.toList := by
  induction e with
  | var v => exact charsOf_plain _
  | const id v => exact charsOf_plain _
  | unary label op x ih => exact @Unary.charsOf_pieces op _ ⟨x.text, x.binding⟩ ih
  | binary label op x y ihx ihy =>
    exact @Binary.charsOf_pieces op _ _ ⟨x.text, x.binding⟩ ⟨y.text, y.binding⟩ ihx ihy
  | variadic label op x xs ihx ihxs =>
    refine charsOf_call _ ?_
    simp only [piecesOf_eq_map, texts_eq_map, List.map_cons, List.map_map, ihx]
    exact congrArg _ (List.map_congr_left ihxs)

end Expr

end DisciplinedConvex
