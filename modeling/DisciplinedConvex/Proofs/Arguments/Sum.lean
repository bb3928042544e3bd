import DisciplinedConvex.Proofs.Arguments.Order

/-! # Sums of many terms

* `Expr.Bracketing` is a way to put terms together two at a time, and `Expr.Bracketing.build`
  carries it out.
* `Expr.Bracketing.of_build` says what is inferred of the sum from the terms as a whole, and
  `Expr.Bracketing.build_succeeds_iff` when there is one. Nothing but the shapes can fail
  (`Expr.Bracketing.fault_of_build`).
* `Expr.sums_agree`: neither the order of the terms nor the bracketing makes a difference.
-/

namespace DisciplinedConvex
set_option autoImplicit false

namespace Sign

theorem add_comm (s t : Sign) : s.add t = t.add s := by
  cases s <;> cases t <;> rfl

theorem add_assoc (s t u : Sign) : (s.add t).add u = s.add (t.add u) := by
  cases s <;> cases t <;> cases u <;> rfl

theorem zero_add (s : Sign) : zero.add s = s := by
  cases s <;> rfl

theorem add_zero (s : Sign) : s.add zero = s := by
  cases s <;> rfl

def sum (signs : List Sign) : Sign := signs.foldr add zero

theorem sum_cons (s : Sign) (ss : List Sign) : sum (s :: ss) = s.add (sum ss) := rfl

theorem sum_append (ss ts : List Sign) : sum (ss ++ ts) = (sum ss).add (sum ts) := by
  induction ss with
  | nil => exact (zero_add _).symm
  | cons s ss ih => rw [List.cons_append, sum_cons, sum_cons, ih, add_assoc]

theorem sum_perm {ss ts : List Sign} (hp : ss.Perm ts) : sum ss = sum ts :=
  hp.foldr_eq' (fun s _ t _ u => by rw [← add_assoc, ← add_assoc, add_comm t]) zero

end Sign

namespace Expr

/-! ## Sums of two terms -/

theorem add_eq (x y : Expr) : x.add y =
    match x.shape.broadcast? y.shape with
    | some _ => .ok (binary none .add x y)
    | none => .error (.shape (.incompatible (.binary .add) x.shape y.shape)) := by
  simp only [add, apply, validate, List.map_cons, List.map_nil, Atom.validate, Binary.shape?,
    Atom.broadcast]
  cases x.shape.broadcast? y.shape <;> rfl

theorem shape_add {x y : Expr} {label : Option Nat} {r : Shape}
    (h : x.shape.broadcast? y.shape = some r) : (binary label .add x y).shape = r :=
  Binary.shape_eq (Atom.broadcast_eq_ok.2 h)

theorem curvature_add (label : Option Nat) (x y : Expr) :
    (binary label .add x y).curvature = x.curvature.add y.curvature := by
  rw [curvature_binary]
  cases x.curvature <;> cases y.curvature <;> rfl

/-! ## Sums of many terms -/

/-- How terms are put together two at a time. -/
inductive Bracketing where
  | term (x : Expr)
  | plus (s t : Bracketing)

namespace Bracketing

/-- The terms from left to right. -/
def terms : Bracketing → List Expr
  | term x => [x]
  | plus s t => s.terms ++ t.terms

/-- The sum, or the first sum of two terms that fails. -/
def build : Bracketing → Except Error Expr
  | term x => .ok x
  | plus s t => do
    let x ← s.build
    let y ← t.build
    x.add y

variable {s t : Bracketing} {e : Expr}

theorem build_plus_eq_ok_iff : (plus s t).build = .ok e ↔
    ∃ x y, s.build = .ok x ∧ t.build = .ok y ∧ x.add y = .ok e := by
  simp only [build, bind_eq_ok_iff]
  constructor
  · rintro ⟨x, hx, y, hy, hadd⟩
    exact ⟨x, y, hx, hy, hadd⟩
  · rintro ⟨x, y, hx, hy, hadd⟩
    exact ⟨x, hx, y, hy, hadd⟩

theorem add_eq_ok_iff {x y : Expr} : x.add y = .ok e ↔
    (∃ r, x.shape.broadcast? y.shape = some r) ∧ e = binary none .add x y := by
  rw [add, apply_binary_eq_ok_iff]
  simp only [Binary.shape?_entrywise_iff (.inl rfl)]

/-- The sum of the terms, without an order. -/
theorem of_build (h : t.build = .ok e) : Shape.IsCommon (t.terms.map shape) e.shape ∧
    e.sign = .sum (t.terms.map sign) ∧ e.curvature = .sum (t.terms.map curvature) := by
  induction t generalizing e with
  | term x =>
    cases h
    exact ⟨Shape.isCommon_singleton.2 rfl, (Sign.add_zero _).symm, (Curvature.add_constant _).symm⟩
  | plus s t ihs iht =>
    obtain ⟨x, y, hx, hy, hadd⟩ := build_plus_eq_ok_iff.1 h
    obtain ⟨⟨r, hr⟩, rfl⟩ := add_eq_ok_iff.1 hadd
    obtain ⟨hxshape, hxsign, hxcurvature⟩ := ihs hx
    obtain ⟨hyshape, hysign, hycurvature⟩ := iht hy
    rw [terms, List.map_append, List.map_append, List.map_append, Sign.sum_append,
      Curvature.sum_append, shape_add hr, curvature_add, ← hxsign, ← hysign, ← hxcurvature,
      ← hycurvature]
    exact ⟨(hxshape.append_iff hyshape).2 hr, rfl, rfl⟩

theorem build_succeeds_iff :
    (∃ e, t.build = .ok e) ↔ ∃ r, Shape.IsCommon (t.terms.map shape) r := by
  constructor
  · rintro ⟨e, he⟩
    exact ⟨_, (of_build he).1⟩
  · rintro ⟨r, hr⟩
    induction t generalizing r with
    | term x => exact ⟨x, rfl⟩
    | plus s t ihs iht =>
      rw [terms, List.map_append] at hr
      obtain ⟨a, ha⟩ := hr.mono (List.subset_append_left _ _)
      obtain ⟨b, hb⟩ := hr.mono (List.subset_append_right _ _)
      obtain ⟨x, hx⟩ := ihs a ha
      obtain ⟨y, hy⟩ := iht b hb
      have hxy := ((of_build hx).1.append_iff (of_build hy).1).1 hr
      exact ⟨_, build_plus_eq_ok_iff.2 ⟨x, y, hx, hy, add_eq_ok_iff.2 ⟨⟨r, hxy⟩, rfl⟩⟩⟩

theorem fault_of_build {error : Error} (h : t.build = .error error) :
    ∃ fault, error = .shape fault := by
  induction t with
  | term x => cases h
  | plus s t ihs iht =>
    rw [build, bind_eq_error_iff] at h
    rcases h with hs | ⟨x, -, h⟩
    · exact ihs hs
    rcases bind_eq_error_iff.1 h with ht | ⟨y, -, hadd⟩
    · exact iht ht
    rw [add_eq] at hadd
    split at hadd
    · cases hadd
    · cases hadd
      exact ⟨_, rfl⟩

end Bracketing

/-- Terms have a common shape if all that are not scalars have. -/
theorem exists_isCommon_iff {xs : List Expr} : (∃ r, Shape.IsCommon (xs.map shape) r) ↔
    ∃ r, ∀ x ∈ xs, x.shape.isScalar = true ∨ x.shape = r := by
  simp only [Shape.isScalar_iff]
  constructor
  · rintro ⟨r, hr⟩
    exact ⟨r, fun x hx => hr.each _ (List.mem_map_of_mem hx)⟩
  · rintro ⟨r, hr⟩
    have hcommon : Shape.IsCommon (r :: xs.map shape) r :=
      ⟨List.forall_mem_cons.2 ⟨.inr rfl, List.forall_mem_map.2 hr⟩, .inr List.mem_cons_self⟩
    exact hcommon.mono (List.subset_cons_self r _)

/-- Two ways to add up the same terms, in whatever order and bracketing: both succeed, with the same
shape, sign and curvature, or both end in a complaint about shapes. They succeed exactly when all
terms that are not scalars have one shape. -/
theorem sums_agree (xs : List Expr) (s t : Bracketing) (hs : s.terms.Perm xs)
    (ht : t.terms.Perm xs) :
    ((∃ x y, s.build = .ok x ∧ t.build = .ok y ∧ x.Agrees y) ∨
      ∃ fault fault', s.build = .error (.shape fault) ∧ t.build = .error (.shape fault')) ∧
    ((∃ x, s.build = .ok x) ↔ ∃ r, ∀ x ∈ xs, x.shape.isScalar = true ∨ x.shape = r) := by
  have hcommon : ∀ {u : Bracketing}, u.terms.Perm xs →
      ((∃ x, u.build = .ok x) ↔ ∃ r, Shape.IsCommon (xs.map shape) r) := fun hu =>
    Bracketing.build_succeeds_iff.trans (exists_congr fun r =>
      ⟨fun h => h.perm (hu.map shape), fun h => h.perm (hu.map shape).symm⟩)
  refine ⟨?_, (hcommon hs).trans exists_isCommon_iff⟩
  have hst := hs.trans ht.symm
  cases hx : s.build with
  | ok x =>
    obtain ⟨y, hy⟩ := (hcommon ht).2 ((hcommon hs).1 ⟨x, hx⟩)
    obtain ⟨hxshape, hxsign, hxcurvature⟩ := Bracketing.of_build hx
    obtain ⟨hyshape, hysign, hycurvature⟩ := Bracketing.of_build hy
    refine .inl ⟨x, y, rfl, hy, (hxshape.perm (hst.map shape)).unique hyshape, ?_, ?_⟩
    · rw [hxsign, hysign, Sign.sum_perm (hst.map sign)]
    · rw [hxcurvature, hycurvature, Curvature.sum_perm (hst.map curvature)]
  | error error =>
    cases hy : t.build with
    | ok y =>
      obtain ⟨x, hx'⟩ := (hcommon hs).2 ((hcommon ht).1 ⟨y, hy⟩)
      cases hx.symm.trans hx'
    | error error' =>
      obtain ⟨fault, rfl⟩ := Bracketing.fault_of_build hx
      obtain ⟨fault', rfl⟩ := Bracketing.fault_of_build hy
      exact .inr ⟨fault, fault', rfl, rfl⟩

open Bracketing in
/-- The scalar on the right of a sum with a column, and on the left of the same sum turned
around. -/
theorem sums_agree_column : ∃ x y,
    (plus (plus (term unit) (term column)) (term floor)).build = .ok x ∧
    (plus (term floor) (plus (term column) (term unit))).build = .ok y ∧
    x.Agrees y ∧ x.shape = .vector 3 ∧ x.curvature = .convex := by
  obtain ⟨⟨x, y, hx, hy, hxy⟩ | ⟨_, _, h, -⟩, -⟩ := sums_agree [unit, column, floor]
    (plus (plus (term unit) (term column)) (term floor))
    (plus (term floor) (plus (term column) (term unit))) (.refl _)
    (List.reverse_perm [unit, column, floor])
  · refine ⟨x, y, hx, hy, hxy, ?_, ?_⟩
    all_goals
      cases hx
      decide
  · cases h

end Expr

end DisciplinedConvex
