import DisciplinedConvex.Proofs.Arguments.Outcome

/-! # Shapes that broadcast one after another

The shapes of the operands of an entrywise atom are combined from left to right.

* `Shape.foldlM_broadcast?_eq_some_iff` says what comes out of it without an order of the operands:
  the shape that all of them have, scalars apart.
* `Atom.IsEntrywise` lists the atoms that check their arguments in this way
  (`Atom.IsEntrywise.validate_eq_ok_iff`).
* `Shape.broadcast_left_to_right` puts both together.
-/

namespace DisciplinedConvex
set_option autoImplicit false

namespace Shape

variable {first r : Shape} {rest ss : List Shape}

/-! ## Common shapes -/

theorem exists_isCommon_iff_agree : (∃ r, IsCommon ss r) ↔
    ∀ s ∈ ss, ∀ t ∈ ss, s ≠ scalar → t ≠ scalar → s = t := by
  constructor
  · rintro ⟨r, hr⟩ s hs t ht hsne htne
    rw [(hr.each s hs).resolve_left hsne, (hr.each t ht).resolve_left htne]
  · intro h
    -- Any shape that is not a scalar will do, if there is one.
    by_cases hall : ∀ s ∈ ss, s = scalar
    · exact ⟨scalar, fun s hs => .inl (hall s hs), .inl rfl⟩
    · simp only [not_forall, exists_prop] at hall
      obtain ⟨r, hr, hne⟩ := hall
      refine ⟨r, fun s hs => ?_, .inr hr⟩
      by_cases hs' : s = scalar
      · exact .inl hs'
      · exact .inr (h s hs r hr hs' hne)

/-- A common shape is a scalar only if there are no other shapes. -/
theorem IsCommon.eq_scalar_iff (h : IsCommon ss r) : r = scalar ↔ ∀ s ∈ ss, s = scalar := by
  constructor
  · rintro rfl s hs
    exact (h.each s hs).elim id id
  · intro hall
    exact h.attained.elim id (hall r)

/-! ## From left to right -/

theorem foldlM_broadcast_eq_ok_iff (atom : Atom) :
    rest.foldlM atom.broadcast first = .ok r ↔ rest.foldlM broadcast? first = some r := by
  induction rest generalizing first with
  | nil => simp [pure, Except.pure]
  | cons s rest ih =>
    rw [List.foldlM_cons, List.foldlM_cons, bind_eq_ok_iff, Option.bind_eq_bind,
      Option.bind_eq_some_iff]
    simp only [Atom.broadcast_eq_ok, ih]

theorem foldlM_broadcast?_eq_some_iff :
    rest.foldlM broadcast? first = some r ↔ IsCommon (first :: rest) r := by
  have hfirst : IsCommon [first] first := isCommon_singleton.2 rfl
  rw [← foldlM_broadcast_eq_ok_iff (.variadic .maximum), hfirst.foldlM_iff,
    List.singleton_append]

theorem foldlM_broadcast?_perm {first' : Shape} {rest' : List Shape}
    (hp : (first' :: rest').Perm (first :: rest)) :
    rest'.foldlM broadcast? first' = rest.foldlM broadcast? first := by
  refine Option.ext fun r => ?_
  rw [foldlM_broadcast?_eq_some_iff, foldlM_broadcast?_eq_some_iff]
  exact ⟨fun h => h.perm hp, fun h => h.perm hp.symm⟩

end Shape

/-! ## Checked applications -/

namespace Atom

/-- The atoms that combine their operands entry by entry. -/
inductive IsEntrywise : Atom → Prop where
  | add : IsEntrywise (.binary .add)
  | mul : IsEntrywise (.binary .mul)
  | maximum : IsEntrywise (.variadic .maximum)
  | minimum : IsEntrywise (.variadic .minimum)

variable {atom : Atom} {first r : Shape} {rest : List Shape}

/-- Two operands are a list too. -/
theorem foldlM_broadcast_pair (atom : Atom) (s t : Shape) :
    [t].foldlM atom.broadcast s = atom.broadcast s t := by
  simp only [List.foldlM_cons, List.foldlM_nil, bind_pure]

theorem IsEntrywise.validate_eq (h : atom.IsEntrywise) (hfits : atom.Fits (first :: rest)) :
    atom.validate (first :: rest) = (rest.foldlM atom.broadcast first).mapError .shape := by
  cases h with
  | add =>
    obtain ⟨op, s, t⟩ := hfits
    rw [foldlM_broadcast_pair]
    rfl
  | mul =>
    obtain ⟨op, s, t⟩ := hfits
    rw [foldlM_broadcast_pair]
    rfl
  | maximum => rfl
  | minimum => rfl

theorem IsEntrywise.validate_eq_ok_iff (h : atom.IsEntrywise) (hfits : atom.Fits (first :: rest)) :
    atom.validate (first :: rest) = .ok r ↔ rest.foldlM Shape.broadcast? first = some r := by
  rw [h.validate_eq hfits, Expr.mapError_eq_ok, Shape.foldlM_broadcast_eq_ok_iff]

end Atom

namespace Shape

/-- Shapes combined from left to right are accepted if and only if all of them that are not scalars
are equal. Every shape is a scalar or that of the result, which is a scalar only if all of them are.
The order does not matter, and the atoms that combine their operands entry by entry accept the same
shapes with the same result. -/
theorem broadcast_left_to_right (first : Shape) (rest : List Shape) :
    ((∃ r, rest.foldlM broadcast? first = some r) ↔
      ∀ s ∈ first :: rest, ∀ t ∈ first :: rest, s ≠ scalar → t ≠ scalar → s = t) ∧
    (∀ r, rest.foldlM broadcast? first = some r →
      (∀ s ∈ first :: rest, s = scalar ∨ s = r) ∧
      (r = scalar ↔ ∀ s ∈ first :: rest, s = scalar)) ∧
    (∀ (first' : Shape) (rest' : List Shape), (first' :: rest').Perm (first :: rest) →
      rest'.foldlM broadcast? first' = rest.foldlM broadcast? first) ∧
    ∀ atom : Atom, atom.IsEntrywise → atom.Fits (first :: rest) → ∀ r,
      atom.validate (first :: rest) = .ok r ↔ rest.foldlM broadcast? first = some r := by
  refine ⟨?_, fun r hr => ?_, fun first' rest' => foldlM_broadcast?_perm,
    fun atom hatom hfits r => hatom.validate_eq_ok_iff hfits⟩
  · simp only [foldlM_broadcast?_eq_some_iff]
    exact exists_isCommon_iff_agree
  · rw [foldlM_broadcast?_eq_some_iff] at hr
    exact ⟨hr.each, hr.eq_scalar_iff⟩

/-! ### A scalar among empty rows -/

def emptyRow : Shape := ⟨0, 3⟩

/-- The scalars take the shape of the rows in any order. A column beside the rows is refused. -/
theorem broadcast_empty_rows :
    [emptyRow, scalar, emptyRow].foldlM broadcast? scalar = some emptyRow ∧
    (∀ s ∈ [scalar, emptyRow, scalar, emptyRow], s = scalar ∨ s = emptyRow) ∧
    (emptyRow :: [emptyRow, scalar, scalar]).Perm (scalar :: [emptyRow, scalar, emptyRow]) ∧
    [emptyRow, scalar, scalar].foldlM broadcast? emptyRow = some emptyRow ∧
    (Atom.variadic .maximum).validate [scalar, emptyRow, scalar, emptyRow] = .ok emptyRow ∧
    ¬ ∃ r, [emptyRow, emptyRow.transpose].foldlM broadcast? scalar = some r := by
  obtain ⟨-, hresult, hperm, hvalidate⟩ :=
    broadcast_left_to_right scalar [emptyRow, scalar, emptyRow]
  have hfold : [emptyRow, scalar, emptyRow].foldlM broadcast? scalar = some emptyRow := by decide
  have hmoved : (emptyRow :: [emptyRow, scalar, scalar]).Perm
      (scalar :: [emptyRow, scalar, emptyRow]) := by decide
  refine ⟨hfold, (hresult _ hfold).1, hmoved, (hperm _ _ hmoved).trans hfold,
    (hvalidate _ .maximum (.variadic _ _ _) _).2 hfold, ?_⟩
  rw [(broadcast_left_to_right scalar [emptyRow, emptyRow.transpose]).1]
  decide

end Shape

end DisciplinedConvex
