import Mathlib.Algebra.BigOperators.Group.List.Basic
import Mathlib.Algebra.Order.BigOperators.Group.List
import Mathlib.Algebra.Order.Group.Nat
import DisciplinedConvex.Proofs.Shape

/-! # Shapes of argument lists

Which shapes an atom of many arguments accepts, said without an order of the arguments.

* `Shape.IsCommon` says that all shapes but the scalars are the same. Two lists with a common shape
  each have one together exactly when the two common shapes broadcast (`Shape.IsCommon.append_iff`).
* `Variadic.Accepts` is the rule of each atom, and `Variadic.shape?_eq_ok_iff` says that the check,
  which takes the arguments one after another, comes to the same. `Variadic.Overflows` is what a
  word cannot hold.
* Arguments may be put in another order (`Variadic.Accepts.perm`), or put together in groups first
  (`Variadic.accepts_flatten_iff`).
-/

namespace DisciplinedConvex
set_option autoImplicit false

section Forall₂

variable {α β : Type} {R : α → β → Prop} {as : List α} {bs : List β}

theorem exists_of_mem_left (h : List.Forall₂ R as bs) {a : α} (ha : a ∈ as) :
    ∃ b ∈ bs, R a b := by
  induction h with
  | nil => cases ha
  | cons hab _ ih =>
    rcases List.mem_cons.1 ha with rfl | ha
    · exact ⟨_, List.mem_cons_self, hab⟩
    · obtain ⟨b, hb, hR⟩ := ih ha
      exact ⟨b, List.mem_cons_of_mem _ hb, hR⟩

theorem exists_of_mem_right (h : List.Forall₂ R as bs) {b : β} (hb : b ∈ bs) :
    ∃ a ∈ as, R a b :=
  exists_of_mem_left h.flip hb

theorem map_eq_map_of_forall₂ {γ : Type} {f : β → γ} {g : α → γ} (hR : ∀ a b, R a b → f b = g a)
    (h : List.Forall₂ R as bs) : bs.map f = as.map g := by
  induction h with
  | nil => rfl
  | cons hab _ ih => rw [List.map_cons, List.map_cons, hR _ _ hab, ih]

theorem exists_forall₂ (h : ∀ a ∈ as, ∃ b, R a b) : ∃ bs, List.Forall₂ R as bs := by
  induction as with
  | nil => exact ⟨[], .nil⟩
  | cons a as ih =>
    obtain ⟨b, hb⟩ := h a List.mem_cons_self
    obtain ⟨bs, hbs⟩ := ih fun a ha => h a (List.mem_cons_of_mem _ ha)
    exact ⟨b :: bs, .cons hb hbs⟩

end Forall₂

namespace Shape

/-- All shapes are this one or scalars. It is a scalar only if all of them are. -/
structure IsCommon (shapes : List Shape) (r : Shape) : Prop where
  each : ∀ s ∈ shapes, s = scalar ∨ s = r
  attained : r = scalar ∨ r ∈ shapes

variable {ss ts : List Shape} {a b r s : Shape}

theorem isCommon_singleton : IsCommon [a] r ↔ a = r := by
  constructor
  · rintro ⟨heach, hattained⟩
    rcases heach a List.mem_cons_self with ha | ha
    · rcases hattained with hr | hr
      · rw [ha, hr]
      · exact (List.mem_singleton.1 hr).symm
    · exact ha
  · rintro rfl
    exact ⟨fun s hs => .inr (List.mem_singleton.1 hs), .inr List.mem_cons_self⟩

theorem IsCommon.unique (ha : IsCommon ss a) (hb : IsCommon ss b) : a = b := by
  rcases ha.attained with hscalar | hmem
  · rcases hb.attained with hscalar' | hmem
    · rw [hscalar, hscalar']
    · rcases ha.each b hmem with h | h
      · rw [hscalar, h]
      · exact h.symm
  · rcases hb.each a hmem with h | h
    · rcases hb.attained with hscalar | hmem
      · rw [h, hscalar]
      · exact (ha.each b hmem).elim (fun h' => h.trans h'.symm) Eq.symm
    · exact h

theorem IsCommon.perm (h : IsCommon ss r) (hp : ss.Perm ts) : IsCommon ts r :=
  ⟨fun s hs => h.each s (hp.mem_iff.2 hs), h.attained.imp id hp.mem_iff.1⟩

theorem IsCommon.mono (h : IsCommon ts r) (hsub : ss ⊆ ts) : ∃ a, IsCommon ss a := by
  by_cases hr : r ∈ ss
  · exact ⟨r, fun s hs => h.each s (hsub hs), .inr hr⟩
  · refine ⟨scalar, fun s hs => .inl ((h.each s (hsub hs)).resolve_right ?_), .inl rfl⟩
    rintro rfl
    exact hr hs

theorem broadcast?_eq_some_iff_isCommon : a.broadcast? b = some r ↔ IsCommon [a, b] r := by
  rw [broadcast?_eq_some_iff]
  constructor
  · intro h
    by_cases ha : a.isScalar = true
    · rw [if_pos ha] at h
      subst h
      exact ⟨by simp [isScalar_iff.1 ha], by simp⟩
    rw [if_neg ha] at h
    by_cases hb : b.isScalar = true
    · rw [if_pos hb] at h
      subst h
      exact ⟨by simp [isScalar_iff.1 hb], by simp⟩
    · rw [if_neg hb] at h
      obtain ⟨rfl, rfl⟩ := h
      exact ⟨by simp, by simp⟩
  · rintro ⟨heach, hattained⟩
    simp only [List.mem_cons, List.not_mem_nil, or_false, forall_eq_or_imp, forall_eq] at *
    simp only [isScalar_iff]
    grind

/-- Groups go together as their common shapes do. -/
theorem IsCommon.flatten_iff {groups : List (List Shape)} {rs : List Shape}
    (h : List.Forall₂ IsCommon groups rs) : IsCommon groups.flatten r ↔ IsCommon rs r := by
  have hleft : ∀ g ∈ groups, ∃ a ∈ rs, IsCommon g a := fun g hg => exists_of_mem_left h hg
  have hright : ∀ a ∈ rs, ∃ g ∈ groups, IsCommon g a := fun a ha => exists_of_mem_right h ha
  constructor
  · rintro ⟨heach, hattained⟩
    constructor
    · intro a ha
      obtain ⟨g, hg, hcommon⟩ := hright a ha
      exact hcommon.attained.elim .inl fun hmem => heach a (List.mem_flatten_of_mem hg hmem)
    · rcases hattained with hr | hr
      · exact .inl hr
      · obtain ⟨g, hg, hmem⟩ := List.mem_flatten.1 hr
        obtain ⟨a, ha, hcommon⟩ := hleft g hg
        rcases hcommon.each r hmem with hra | rfl
        · exact .inl hra
        · exact .inr ha
  · rintro ⟨heach, hattained⟩
    constructor
    · intro s hs
      obtain ⟨g, hg, hmem⟩ := List.mem_flatten.1 hs
      obtain ⟨a, ha, hcommon⟩ := hleft g hg
      exact (hcommon.each s hmem).elim .inl fun hsa => hsa ▸ heach a ha
    · rcases hattained with hr | hr
      · exact .inl hr
      · obtain ⟨g, hg, hcommon⟩ := hright r hr
        exact hcommon.attained.imp id fun hmem => List.mem_flatten_of_mem hg hmem

theorem IsCommon.append_iff (ha : IsCommon ss a) (hb : IsCommon ts b) :
    IsCommon (ss ++ ts) r ↔ a.broadcast? b = some r := by
  rw [broadcast?_eq_some_iff_isCommon, ← flatten_iff (.cons ha (.cons hb .nil))]
  simp

/-- Shapes taken one after another. -/
theorem IsCommon.foldlM_iff {atom : Atom} (ha : IsCommon ss a) :
    ts.foldlM atom.broadcast a = .ok r ↔ IsCommon (ss ++ ts) r := by
  induction ts generalizing ss a with
  | nil =>
    rw [List.foldlM_nil, List.append_nil]
    constructor
    · rintro ⟨⟩
      exact ha
    · intro hr
      rw [ha.unique hr]
      rfl
  | cons t ts ih =>
    have hstep : ∀ u, atom.broadcast a t = .ok u ↔ IsCommon (ss ++ [t]) u := fun u =>
      Atom.broadcast_eq_ok.trans (ha.append_iff (isCommon_singleton.2 rfl)).symm
    rw [List.foldlM_cons, List.append_cons]
    cases hu : atom.broadcast a t with
    | ok u => exact ih ((hstep u).1 hu)
    | error fault =>
      refine iff_of_false (nomatch ·) fun h => ?_
      obtain ⟨u, hcommon⟩ := h.mono (List.subset_append_left (ss ++ [t]) ts)
      cases hu.symm.trans ((hstep u).2 hcommon)

end Shape

namespace Variadic

/-- The atom makes one shape of the others. -/
def Accepts (op : Variadic) (shapes : List Shape) (r : Shape) : Prop :=
  match op with
  | vstack => (∀ s ∈ shapes, s.cols = r.cols) ∧ (shapes.map (·.rows.toNat)).sum = r.rows.toNat
  | hstack => (∀ s ∈ shapes, s.rows = r.rows) ∧ (shapes.map (·.cols.toNat)).sum = r.cols.toNat
  | maximum | minimum => Shape.IsCommon shapes r

variable {op : Variadic} {first r : Shape} {rest ss ts : List Shape}

theorem shape?_eq_ok_iff : op.shape? first rest = .ok r ↔ op.Accepts (first :: rest) r := by
  have hfirst : Shape.IsCommon [first] first := Shape.isCommon_singleton.2 rfl
  have hcommon : ∀ atom : Atom, (rest.foldlM atom.broadcast first).mapError Error.shape = .ok r ↔
      Shape.IsCommon (first :: rest) r := fun atom => Expr.mapError_eq_ok.trans hfirst.foldlM_iff
  cases op with
  | maximum => exact hcommon _
  | minimum => exact hcommon _
  | vstack =>
    simp only [shape?_vstack_iff, Accepts, List.forall_mem_cons, List.map_cons, List.sum_cons]
    grind
  | hstack =>
    simp only [shape?_hstack_iff, Accepts, List.forall_mem_cons, List.map_cons, List.sum_cons]
    grind

/-- The atom stacks shapes that fit, but no word holds the sum. -/
def Overflows (op : Variadic) (shapes : List Shape) : Prop :=
  match op with
  | vstack => (∃ n, ∀ s ∈ shapes, s.cols = n) ∧ UInt64.size ≤ (shapes.map (·.rows.toNat)).sum
  | hstack => (∃ n, ∀ s ∈ shapes, s.rows = n) ∧ UInt64.size ≤ (shapes.map (·.cols.toNat)).sum
  | maximum | minimum => False

theorem shape?_eq_overflow_iff {fault : Overflow} :
    op.shape? first rest = .error (.overflow fault) ↔
      op.Overflows (first :: rest) ∧ fault = .add := by
  have hcommon : ∀ atom : Atom, (rest.foldlM atom.broadcast first).mapError Error.shape ≠
      .error (.overflow fault) := by
    intro atom h
    obtain ⟨_, -, ⟨⟩⟩ := Expr.mapError_eq_error.1 h
  -- The first part is as wide as itself, so that the others are compared with it alone.
  have hsame : ∀ f : Shape → UInt64,
      (∃ n, ∀ s ∈ first :: rest, f s = n) ↔ ∀ t ∈ rest, f t = f first := by
    intro f
    simp only [List.forall_mem_cons]
    exact ⟨fun ⟨n, hfirst, hrest⟩ t ht => (hrest t ht).trans hfirst.symm, fun h => ⟨_, rfl, h⟩⟩
  cases op with
  | maximum => exact iff_of_false (hcommon _) fun h => h.1
  | minimum => exact iff_of_false (hcommon _) fun h => h.1
  | vstack =>
    simp (disch := simp) only [shape?, ite_any_eq_iff, stacked_eq_error_iff, Overflows, hsame,
      List.map_map, bne_eq_false_iff_eq, and_assoc, Function.comp_def, Error.overflow.injEq]
  | hstack =>
    simp (disch := simp) only [shape?, ite_any_eq_iff, stacked_eq_error_iff, Overflows, hsame,
      List.map_map, bne_eq_false_iff_eq, and_assoc, Function.comp_def, Error.overflow.injEq]

/-- The check complains of the shapes, or of a stack that is too large. -/
theorem error_of_shape? {error : Error} (h : op.shape? first rest = .error error) :
    (∃ fault, error = .shape fault) ∨ error = .overflow .add := by
  cases op with
  | maximum =>
    obtain ⟨fault, -, rfl⟩ := Expr.mapError_eq_error.1 h
    exact .inl ⟨fault, rfl⟩
  | minimum =>
    obtain ⟨fault, -, rfl⟩ := Expr.mapError_eq_error.1 h
    exact .inl ⟨fault, rfl⟩
  | vstack =>
    rw [shape?] at h
    split at h
    case isTrue =>
      cases h
      exact .inl ⟨_, rfl⟩
    case isFalse => exact .inr (stacked_eq_error_iff.1 h).2
  | hstack =>
    rw [shape?] at h
    split at h
    case isTrue =>
      cases h
      exact .inl ⟨_, rfl⟩
    case isFalse => exact .inr (stacked_eq_error_iff.1 h).2

theorem Accepts.perm (h : op.Accepts ss r) (hp : ss.Perm ts) : op.Accepts ts r := by
  cases op with
  | maximum => exact Shape.IsCommon.perm h hp
  | minimum => exact Shape.IsCommon.perm h hp
  | vstack => exact ⟨fun s hs => h.1 s (hp.mem_iff.2 hs), (hp.map _).sum_eq.symm.trans h.2⟩
  | hstack => exact ⟨fun s hs => h.1 s (hp.mem_iff.2 hs), (hp.map _).sum_eq.symm.trans h.2⟩

/-- A part of a sum that a word can hold. -/
theorem exists_word_of_sublist {f : Shape → ℕ} {n : UInt64} (hsub : ss.Sublist ts)
    (h : (ts.map f).sum = n.toNat) : ∃ m : UInt64, (ss.map f).sum = m.toNat := by
  have hle : (ss.map f).sum ≤ (ts.map f).sum :=
    (hsub.map f).sum_le_sum fun _ _ => Nat.zero_le _
  have hlt : (ss.map f).sum < UInt64.size := hle.trans_lt (h ▸ n.toNat_lt)
  exact ⟨.ofNat _, (UInt64.toNat_ofNat_of_lt' hlt).symm⟩

/-- What is accepted is accepted in part. -/
theorem Accepts.mono (h : op.Accepts ts r) (hsub : ss.Sublist ts) : ∃ a, op.Accepts ss a := by
  cases op with
  | maximum => exact Shape.IsCommon.mono h hsub.subset
  | minimum => exact Shape.IsCommon.mono h hsub.subset
  | vstack =>
    obtain ⟨rows, hrows⟩ := exists_word_of_sublist hsub h.2
    exact ⟨⟨rows, r.cols⟩, fun s hs => h.1 s (hsub.subset hs), hrows⟩
  | hstack =>
    obtain ⟨cols, hcols⟩ := exists_word_of_sublist hsub h.2
    exact ⟨⟨r.rows, cols⟩, fun s hs => h.1 s (hsub.subset hs), hcols⟩

/-- Parts that keep one dimension and add up another, put together in groups first. -/
theorem stack_flatten_iff {kept added : Shape → UInt64} {groups : List (List Shape)}
    {rs : List Shape} (hne : [] ∉ groups) (h : List.Forall₂ (fun g a =>
      (∀ s ∈ g, kept s = kept a) ∧ (g.map fun s => (added s).toNat).sum = (added a).toNat)
      groups rs) :
    ((∀ s ∈ groups.flatten, kept s = kept r) ∧
        (groups.flatten.map fun s => (added s).toNat).sum = (added r).toNat) ↔
      (∀ s ∈ rs, kept s = kept r) ∧ (rs.map fun s => (added s).toNat).sum = (added r).toNat := by
  have hsum : (rs.map fun s => (added s).toNat) =
      groups.map fun g => (g.map fun s => (added s).toNat).sum :=
    map_eq_map_of_forall₂ (fun _ _ hga => hga.2.symm) h
  have hflatten : (groups.flatten.map fun s => (added s).toNat).sum =
      (rs.map fun s => (added s).toNat).sum := by
    rw [hsum, List.map_flatten, List.sum_flatten, List.map_map]
    rfl
  rw [hflatten]
  refine and_congr_left fun _ => ⟨fun hkept a ha => ?_, fun hkept s hs => ?_⟩
  · obtain ⟨g, hg, hga, -⟩ := exists_of_mem_right h ha
    obtain ⟨s, hs⟩ := List.exists_mem_of_ne_nil g fun hnil => hne (hnil ▸ hg)
    exact (hga s hs).symm.trans (hkept s (List.mem_flatten_of_mem hg hs))
  · obtain ⟨g, hg, hmem⟩ := List.mem_flatten.1 hs
    obtain ⟨a, ha, hga, -⟩ := exists_of_mem_left h hg
    exact (hga s hmem).trans (hkept a ha)

theorem accepts_flatten_iff {groups : List (List Shape)} {rs : List Shape} (hne : [] ∉ groups)
    (h : List.Forall₂ op.Accepts groups rs) : op.Accepts groups.flatten r ↔ op.Accepts rs r := by
  cases op with
  | maximum => exact Shape.IsCommon.flatten_iff h
  | minimum => exact Shape.IsCommon.flatten_iff h
  | vstack => exact stack_flatten_iff hne h
  | hstack => exact stack_flatten_iff hne h

end Variadic

end DisciplinedConvex
