import DisciplinedConvex.Proofs.Printing.Expr
import DisciplinedConvex.Proofs.Printing.Number

/-! # Atoms from their print

The name of an atom and what is printed after its arguments determine it (`Atom.eq_of_printed`), as
long as its parameters pass their checks (`Atom.IsChecked`): an exponent is a finite number other
than zero, and no span of a selection is empty. The two forms of a span do not collide then
(`Span.text_inj`).
-/

namespace DisciplinedConvex
set_option autoImplicit false

open Piece

/-! ## Words -/

theorem toList_toString_word (n : UInt64) : (toString n).toList = Nat.toDigits 10 n.toNat :=
  Nat.toList_repr

theorem word_digits {n : UInt64} {c : Char} (h : c ∈ (toString n).toList) : c.isDigit = true := by
  rw [toList_toString_word] at h
  exact Nat.isDigit_of_mem_toDigits (by decide) (by decide) h

theorem word_text_inj {m n : UInt64} (h : (toString m).toList = (toString n).toList) : m = n :=
  UInt64.toNat_inj.1 (Nat.repr_inj.1 (String.toList_inj.1 h))

theorem notMem_word {c : Char} (hc : c.isDigit = false) (n : UInt64) : c ∉ (toString n).toList :=
  fun h => by
    rw [word_digits h] at hc
    cases hc

namespace Piece

theorem notMem_marks_of_isDigit {c : Char} (h : c.isDigit = true) : c ∉ Bracket.marks := by
  intro hc
  simp only [Bracket.marks, List.mem_cons, List.not_mem_nil, or_false] at hc
  rcases hc with rfl | rfl | rfl | rfl <;> cases h

theorem plain_inj {s t : List Char} (h : plain s = plain t) : s = t :=
  List.map_injective_iff.2 (fun _ _ => Piece.char.inj) h

theorem char_mem_plain {c : Char} {s : List Char} : char c ∈ plain s ↔ c ∈ s := by
  simp [plain]

end Piece

/-! ## Shapes and selections -/

theorem Shape.pieces_inj {s t : Shape} (h : s.pieces = t.pieces) : s = t := by
  have hinside := (Piece.group.inj (List.cons.inj h).1).2
  have hcomma : ∀ n : UInt64, char ',' ∉ plain (toString n).toList := fun n hm =>
    notMem_word (by decide) n (char_mem_plain.1 hm)
  rw [List.append_assoc, List.append_assoc] at hinside
  obtain ⟨hrows, hcols⟩ := append_cons_inj_of_notMem_left (hcomma _) (hcomma _) hinside
  cases s
  cases t
  rw [Shape.mk.injEq]
  exact ⟨word_text_inj (plain_inj hrows), word_text_inj (plain_inj (List.append_cancel_left hcols))⟩

theorem Shape.proper_pieces (s : Shape) : Proper s.pieces := by
  have hword : ∀ n : UInt64, Proper (plain (toString n).toList) := fun n =>
    .plain fun c hc => notMem_marks_of_isDigit (word_digits hc)
  exact .singleton (((hword _).append (.plain (by simp [Bracket.marks]))).append (hword _))

namespace Span

theorem text_single {s : Span} (h : s.length = 1) : s.text.toList = (toString s.start).toList := by
  rw [text, if_pos h]

theorem text_range {s : Span} (h : s.length ≠ 1) :
    s.text.toList = (toString s.start).toList ++ ':' :: (toString s.stop).toList := by
  rw [text, if_neg h]
  simp

theorem mem_text {s : Span} {c : Char} (hc : c ∈ s.text.toList) : c.isDigit = true ∨ c = ':' := by
  by_cases hs : s.length = 1
  · rw [text_single hs] at hc
    exact .inl (word_digits hc)
  · rw [text_range hs, List.mem_append, List.mem_cons] at hc
    rcases hc with hc | hc | hc
    · exact .inl (word_digits hc)
    · exact .inr hc
    · exact .inl (word_digits hc)

theorem stop_of_length {s : Span} (h : s.length = 1) (hs : s.isEmpty = false) :
    s.stop = 1 + s.start := by
  have hlt : s.start < s.stop := by simpa [isEmpty] using hs
  rw [length, if_pos hlt] at h
  rw [← h, UInt64.sub_add_cancel]

theorem text_inj {s t : Span} (hs : s.isEmpty = false) (ht : t.isEmpty = false)
    (h : s.text.toList = t.text.toList) : s = t := by
  have hcolon : ∀ n : UInt64, ':' ∉ (toString n).toList := notMem_word (by decide)
  by_cases hs1 : s.length = 1
  · by_cases ht1 : t.length = 1
    · rw [text_single hs1, text_single ht1] at h
      have hstart := word_text_inj h
      have hstop := (stop_of_length hs1 hs).trans (hstart ▸ (stop_of_length ht1 ht).symm)
      cases s
      cases t
      rw [mk.injEq]
      exact ⟨hstart, hstop⟩
    · rw [text_single hs1, text_range ht1] at h
      exact absurd (by rw [h]; simp) (hcolon s.start)
  · by_cases ht1 : t.length = 1
    · rw [text_range hs1, text_single ht1] at h
      exact absurd (by rw [← h]; simp) (hcolon t.start)
    · rw [text_range hs1, text_range ht1] at h
      obtain ⟨hstart, hstop⟩ := append_cons_inj_of_notMem_left (hcolon _) (hcolon _) h
      cases s
      cases t
      rw [mk.injEq]
      exact ⟨word_text_inj hstart, word_text_inj hstop⟩

end Span

/-- Some row and some column are selected. -/
def Selection.Nonempty (s : Selection) : Prop := s.rows.isEmpty = false ∧ s.cols.isEmpty = false

theorem Selection.proper_pieces (s : Selection) : Proper s.pieces := by
  have hspan : ∀ u : Span, Proper (plain u.text.toList) := fun u => .plain fun c hc => by
    rcases Span.mem_text hc with hdigit | rfl
    · exact notMem_marks_of_isDigit hdigit
    · decide
  exact .singleton (((hspan _).append (.plain (by simp [Bracket.marks]))).append (hspan _))

theorem Selection.pieces_inj {s t : Selection} (hs : s.Nonempty) (ht : t.Nonempty)
    (h : s.pieces = t.pieces) : s = t := by
  have hinside := (Piece.group.inj (List.cons.inj h).1).2
  have hcomma : ∀ u : Span, char ',' ∉ plain u.text.toList := fun u hm => by
    rcases Span.mem_text (char_mem_plain.1 hm) with hdigit | hcolon
    · exact absurd hdigit (by decide)
    · exact absurd hcolon (by decide)
  rw [List.append_assoc, List.append_assoc] at hinside
  obtain ⟨hrows, hcols⟩ := append_cons_inj_of_notMem_left (hcomma _) (hcomma _) hinside
  cases s
  cases t
  rw [Selection.mk.injEq]
  exact ⟨Span.text_inj hs.1 ht.1 (plain_inj hrows), Span.text_inj hs.2 ht.2 (plain_inj hcols)⟩

/-! ## Atoms -/

/-- The parameters pass their checks. -/
def Unary.IsChecked : Unary → Prop
  | index selection => selection.Nonempty
  | power p => p.isFinite = true ∧ (p == 0) = false
  | _ => True

theorem Unary.eq_of_printed {a b : Unary} (ha : a.IsChecked) (hb : b.IsChecked)
    (hname : a.name = b.name) (hparams : a.params = b.params) : a = b := by
  cases a <;> cases b <;> first | rfl | simp [name] at hname
  case reshape.reshape s t => rw [Shape.pieces_inj (List.cons.inj hparams).1]
  case index.index s t => rw [Selection.pieces_inj ha hb (List.cons.inj hparams).1]
  case power.power p q =>
    have htext := plain_inj (List.cons.inj hparams).1
    rw [Number.text_inj ha.1 ha.2 hb.1 hb.2 (String.toList_inj.1 htext)]

namespace Atom

/-- What is printed after the arguments. -/
def params : Atom → List (List Piece)
  | unary op => op.params
  | _ => []

def IsChecked : Atom → Prop
  | unary op => op.IsChecked
  | _ => True

/-- As many parameters are printed as the name asks for. -/
def paramCount (name : String) : Nat :=
  if name = "reshape" ∨ name = "index" ∨ name = "power" then 1 else 0

theorem length_params (a : Atom) : a.params.length = paramCount a.name := by
  cases a with
  | unary op => cases op <;> simp [params, Unary.params, name, Unary.name, paramCount]
  | binary op => cases op <;> simp [params, name, Binary.name, paramCount]
  | variadic op => cases op <;> simp [params, name, Variadic.name, paramCount]

theorem comma_notMem_params {a : Atom} (ha : a.IsChecked) {p : List Piece} (hp : p ∈ a.params) :
    char ',' ∉ p := by
  match a with
  | unary (.reshape target) =>
    rw [List.mem_singleton.1 hp, Shape.pieces]
    simp
  | unary (.index selection) =>
    rw [List.mem_singleton.1 hp, Selection.pieces]
    simp
  | unary (.power q) =>
    rw [List.mem_singleton.1 hp, char_mem_plain]
    intro hm
    rcases Number.mem_text ha.1 ha.2 hm with hdigit | hpoint | hminus
    · exact absurd hdigit (by decide)
    · exact absurd hpoint (by decide)
    · exact absurd hminus (by decide)

theorem proper_params {a : Atom} (ha : a.IsChecked) {p : List Piece} (hp : p ∈ a.params) :
    Proper p := by
  match a with
  | unary (.reshape target) =>
    rw [List.mem_singleton.1 hp]
    exact target.proper_pieces
  | unary (.index selection) =>
    rw [List.mem_singleton.1 hp]
    exact selection.proper_pieces
  | unary (.power q) =>
    rw [List.mem_singleton.1 hp]
    refine .plain fun c hc => ?_
    rcases Number.mem_text ha.1 ha.2 hc with hdigit | rfl | rfl
    · exact notMem_marks_of_isDigit hdigit
    · decide
    · decide

theorem unary_name_ne_binary (a : Unary) (b : Binary) : a.name ≠ b.name := by
  cases a <;> cases b <;> simp [Unary.name, Binary.name]

theorem unary_name_ne_variadic (a : Unary) (b : Variadic) : a.name ≠ b.name := by
  cases a <;> cases b <;> simp [Unary.name, Variadic.name]

theorem binary_name_ne_variadic (a : Binary) (b : Variadic) : a.name ≠ b.name := by
  cases a <;> cases b <;> simp [Binary.name, Variadic.name]

theorem eq_of_printed {a b : Atom} (ha : a.IsChecked) (hb : b.IsChecked)
    (hname : a.name = b.name) (hparams : a.params = b.params) : a = b := by
  match a, b with
  | unary a, unary b => rw [Unary.eq_of_printed ha hb hname hparams]
  | unary a, binary b => exact absurd hname (unary_name_ne_binary a b)
  | unary a, variadic b => exact absurd hname (unary_name_ne_variadic a b)
  | binary a, unary b => exact absurd hname.symm (unary_name_ne_binary b a)
  | binary a, binary b => cases a <;> cases b <;> first | rfl | simp [name, Binary.name] at hname
  | binary a, variadic b => exact absurd hname (binary_name_ne_variadic a b)
  | variadic a, unary b => exact absurd hname.symm (unary_name_ne_variadic b a)
  | variadic a, binary b => exact absurd hname.symm (binary_name_ne_variadic b a)
  | variadic a, variadic b =>
    cases a <;> cases b <;> first | rfl | simp [name, Variadic.name] at hname

end Atom

end DisciplinedConvex
