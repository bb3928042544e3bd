import DisciplinedConvex.Proofs.Arguments.Outcome
import DisciplinedConvex.Proofs.Tighten.Order

/-! # Order and grouping of arguments

The atoms of many arguments see their arguments as an unordered whole.

* `Variadic.isNonneg_sign` and `Variadic.isNonpos_sign` ask all arguments, or some of them.
* `Variadic.joined` is the curvature as a sum of one part from each argument. Taking the part of a
  part changes nothing, so that groups may be joined first (`Variadic.joined_flatten`).
* `Expr.application_order_free` says that neither the order of the arguments nor putting them
  together in groups first makes a difference.
-/

namespace DisciplinedConvex
set_option autoImplicit false

namespace Sign

theorem eq_of_bounds {s t : Sign} (hnonneg : s.isNonneg = t.isNonneg)
    (hnonpos : s.isNonpos = t.isNonpos) : s = t := by
  rw [← ofBounds_bounds s, hnonneg, hnonpos, ofBounds_bounds]

end Sign

/-! ## Sums of curvatures -/

namespace Curvature

def sum (cs : List Curvature) : Curvature := cs.foldr add constant

theorem sum_cons (c : Curvature) (cs : List Curvature) : sum (c :: cs) = c.add (sum cs) := rfl

theorem sum_append (cs ds : List Curvature) : sum (cs ++ ds) = (sum cs).add (sum ds) := by
  induction cs with
  | nil => exact (constant_add _).symm
  | cons c cs ih => rw [List.cons_append, sum_cons, sum_cons, ih, add_assoc]

theorem sum_perm {cs ds : List Curvature} (hp : cs.Perm ds) : sum cs = sum ds :=
  hp.foldr_eq' (fun c _ d _ e => by rw [← add_assoc, ← add_assoc, add_comm d]) constant

theorem foldl_add_eq (c : Curvature) (cs : List Curvature) : cs.foldl add c = c.add (sum cs) := by
  induction cs generalizing c with
  | nil => exact (add_constant c).symm
  | cons d cs ih => rw [List.foldl_cons, ih, sum_cons, add_assoc]

theorem compose_eq_sum (base : Curvature) (args : List (Monotonicity × Curvature × Sign)) :
    base.compose args = sum (args.map fun a => base.contribution a.1 a.2.1 a.2.2) := by
  rw [compose, foldl_add_eq, constant_add]

end Curvature

namespace Variadic

variable {op : Variadic} {signs : List Sign} {groups : List (List Sign)}

/-! ## Signs -/

theorem isNonneg_sign (hne : signs ≠ []) : (op.sign signs).isNonneg = true ↔
    if op = maximum then ∃ s ∈ signs, s.isNonneg = true else ∀ s ∈ signs, s.isNonneg = true := by
  have hempty : signs.isEmpty = false := List.isEmpty_eq_false_iff.2 hne
  cases op <;> simp [sign, Sign.maximum, Sign.minimum, Sign.union, hempty]

theorem isNonpos_sign (hne : signs ≠ []) : (op.sign signs).isNonpos = true ↔
    if op = minimum then ∃ s ∈ signs, s.isNonpos = true else ∀ s ∈ signs, s.isNonpos = true := by
  have hempty : signs.isEmpty = false := List.isEmpty_eq_false_iff.2 hne
  cases op <;> simp [sign, Sign.maximum, Sign.minimum, Sign.union, hempty]

theorem sign_perm {signs' : List Sign} (hne : signs ≠ []) (hp : signs.Perm signs') :
    op.sign signs = op.sign signs' := by
  have hne' : signs' ≠ [] := fun h => hne (List.perm_nil.1 (h ▸ hp))
  apply Sign.eq_of_bounds
  · rw [Bool.eq_iff_iff, isNonneg_sign hne, isNonneg_sign hne']
    simp only [hp.mem_iff]
  · rw [Bool.eq_iff_iff, isNonpos_sign hne, isNonpos_sign hne']
    simp only [hp.mem_iff]

/-- Asking some, or all, members of all groups is asking some, or all, groups the same. -/
theorem quantified_flatten {p : Sign → Prop} {f : List Sign → Prop} {c : Prop} [Decidable c]
    (hf : ∀ g ∈ groups, f g ↔ if c then ∃ s ∈ g, p s else ∀ s ∈ g, p s) :
    (if c then ∃ s ∈ groups.flatten, p s else ∀ s ∈ groups.flatten, p s) ↔
      if c then ∃ g ∈ groups, f g else ∀ g ∈ groups, f g := by
  split
  case isTrue hc =>
    simp only [hc, if_true] at hf
    constructor
    · rintro ⟨s, hs, hp⟩
      obtain ⟨g, hg, hmem⟩ := List.mem_flatten.1 hs
      exact ⟨g, hg, (hf g hg).2 ⟨s, hmem, hp⟩⟩
    · rintro ⟨g, hg, hfg⟩
      obtain ⟨s, hmem, hp⟩ := (hf g hg).1 hfg
      exact ⟨s, List.mem_flatten_of_mem hg hmem, hp⟩
  case isFalse hc =>
    simp only [hc, if_false] at hf
    simp only [List.forall_mem_flatten]
    exact forall₂_congr fun g hg => (hf g hg).symm

theorem flatten_ne_nil {α : Type} {groups : List (List α)} (hne : groups ≠ [])
    (hgroups : [] ∉ groups) : groups.flatten ≠ [] := by
  intro h
  obtain ⟨g, rest, rfl⟩ := List.exists_cons_of_ne_nil hne
  rw [List.flatten_cons, List.append_eq_nil_iff] at h
  exact hgroups (h.1 ▸ List.mem_cons_self)

theorem sign_flatten (hne : groups ≠ []) (hgroups : [] ∉ groups) :
    op.sign groups.flatten = op.sign (groups.map op.sign) := by
  have hmap : groups.map op.sign ≠ [] := mt List.map_eq_nil_iff.1 hne
  have hflatten := flatten_ne_nil hne hgroups
  have hmem : ∀ g ∈ groups, g ≠ [] := fun g hg h => hgroups (h ▸ hg)
  apply Sign.eq_of_bounds
  · rw [Bool.eq_iff_iff, isNonneg_sign hflatten, isNonneg_sign hmap]
    simp only [List.mem_map, exists_exists_and_eq_and, forall_exists_index, and_imp,
      forall_apply_eq_imp_iff₂]
    exact quantified_flatten fun g hg => isNonneg_sign (hmem g hg)
  · rw [Bool.eq_iff_iff, isNonpos_sign hflatten, isNonpos_sign hmap]
    simp only [List.mem_map, exists_exists_and_eq_and, forall_exists_index, and_imp,
      forall_apply_eq_imp_iff₂]
    exact quantified_flatten fun g hg => isNonpos_sign (hmem g hg)

/-! ## Curvatures -/

/-- What one argument adds to the curvature; the sign plays no part. -/
def part (op : Variadic) (c : Curvature) : Curvature :=
  op.curvature.contribution op.monotonicity c .unknown

def joined (op : Variadic) (cs : List Curvature) : Curvature := .sum (cs.map op.part)

theorem contribution_eq_part (op : Variadic) (c : Curvature) (s : Sign) :
    op.curvature.contribution op.monotonicity c s = op.part c := by
  cases op <;> rfl

theorem part_constant (op : Variadic) : op.part .constant = .constant := rfl

theorem part_add (op : Variadic) (c d : Curvature) :
    op.part (c.add d) = (op.part c).add (op.part d) := by
  cases op <;> cases c <;> cases d <;> rfl

@[simp] theorem part_part (op : Variadic) (c : Curvature) : op.part (op.part c) = op.part c := by
  cases op <;> cases c <;> rfl

theorem joined_cons (op : Variadic) (c : Curvature) (cs : List Curvature) :
    op.joined (c :: cs) = (op.part c).add (op.joined cs) := rfl

theorem joined_append (op : Variadic) (cs ds : List Curvature) :
    op.joined (cs ++ ds) = (op.joined cs).add (op.joined ds) := by
  rw [joined, List.map_append, Curvature.sum_append]
  rfl

theorem part_joined (op : Variadic) (cs : List Curvature) :
    op.part (op.joined cs) = op.joined cs := by
  induction cs with
  | nil => exact op.part_constant
  | cons c cs ih => rw [joined_cons, part_add, part_part, ih]

theorem joined_flatten (op : Variadic) (groups : List (List Curvature)) :
    op.joined groups.flatten = op.joined (groups.map op.joined) := by
  induction groups with
  | nil => rfl
  | cons g rest ih =>
    rw [List.flatten_cons, joined_append, ih, List.map_cons, joined_cons, part_joined]

theorem joined_perm (op : Variadic) {cs ds : List Curvature} (hp : cs.Perm ds) :
    op.joined cs = op.joined ds :=
  Curvature.sum_perm (hp.map op.part)

end Variadic

namespace Expr

variable {op : Variadic} {xs : List Expr} {e : Expr}

theorem curvature_eq_joined (h : apply (.variadic op) xs = .ok e) :
    e.curvature = op.joined (xs.map curvature) := by
  rw [curvature_of_apply h, Curvature.compose_eq_sum, Variadic.joined, List.map_map, List.map_map]
  simp only [Function.comp_def, Variadic.contribution_eq_part]

/-! ## Applications -/

/-- Every group is put together first, and then what has become of the groups. -/
def applyGrouped (op : Variadic) (groups : List (List Expr)) : Except Error Expr := do
  let parts ← groups.mapM (apply (.variadic op))
  apply (.variadic op) parts

theorem mapM_eq_ok_iff {α β : Type} {f : α → Except Error β} {as : List α} {bs : List β} :
    as.mapM f = .ok bs ↔ List.Forall₂ (fun a b => f a = .ok b) as bs := by
  induction as generalizing bs with
  | nil =>
    rw [List.mapM_nil, List.forall₂_nil_left_iff]
    exact ⟨fun h => (Except.ok.inj h).symm, fun h => h ▸ rfl⟩
  | cons a as ih =>
    simp only [List.mapM_cons, List.forall₂_cons_left_iff, bind_eq_ok_iff, ih]
    constructor
    · rintro ⟨b, hb, rest, hrest, ⟨⟩⟩
      exact ⟨b, rest, hb, hrest, rfl⟩
    · rintro ⟨b, rest, hb, hrest, rfl⟩
      exact ⟨b, hb, rest, hrest, rfl⟩

theorem applyGrouped_eq_ok_iff {groups : List (List Expr)} : applyGrouped op groups = .ok e ↔
    ∃ parts, List.Forall₂ (fun g x => apply (.variadic op) g = .ok x) groups parts ∧
      apply (.variadic op) parts = .ok e := by
  rw [applyGrouped, bind_eq_ok_iff]
  exact exists_congr fun parts => and_congr_left fun _ => mapM_eq_ok_iff

section Groups

variable {groups : List (List Expr)} {parts : List Expr}

theorem accepts_parts_iff (hgroups : [] ∉ groups)
    (h : List.Forall₂ (fun g x => apply (.variadic op) g = .ok x) groups parts) {r : Shape} :
    op.Accepts (groups.flatten.map shape) r ↔ op.Accepts (parts.map shape) r := by
  have hshapes : List.Forall₂ op.Accepts (groups.map (List.map shape)) (parts.map shape) := by
    rw [List.forall₂_map_left_iff, List.forall₂_map_right_iff]
    exact h.imp fun _ _ => accepts_shape_of_apply
  rw [List.map_flatten]
  refine Variadic.accepts_flatten_iff ?_ hshapes
  simpa using hgroups

theorem sign_parts (hne : groups ≠ []) (hgroups : [] ∉ groups)
    (h : List.Forall₂ (fun g x => apply (.variadic op) g = .ok x) groups parts) :
    op.sign (parts.map sign) = op.sign (groups.flatten.map sign) := by
  have hsigns : parts.map sign = groups.map fun g => op.sign (g.map sign) :=
    map_eq_map_of_forall₂ (fun _ _ => sign_of_apply) h
  have hmap : [] ∉ groups.map (List.map sign) := by simpa using hgroups
  rw [List.map_flatten, Variadic.sign_flatten (mt List.map_eq_nil_iff.1 hne) hmap, hsigns,
    List.map_map]
  rfl

theorem joined_parts (h : List.Forall₂ (fun g x => apply (.variadic op) g = .ok x) groups parts) :
    op.joined (parts.map curvature) = op.joined (groups.flatten.map curvature) := by
  have hcurvatures : parts.map curvature = groups.map fun g => op.joined (g.map curvature) :=
    map_eq_map_of_forall₂ (fun _ _ => curvature_eq_joined) h
  rw [List.map_flatten, Variadic.joined_flatten, hcurvatures, List.map_map]
  rfl

end Groups

theorem matched_perm {ys : List Expr} (hp : ys.Perm xs) :
    Matched Agrees (apply (.variadic op) ys) (apply (.variadic op) xs) := by
  have hsucceeds : ∀ {as bs : List Expr}, as.Perm bs → (∃ e, apply (.variadic op) as = .ok e) →
      ∃ e, apply (.variadic op) bs = .ok e := by
    intro as bs hp h
    obtain ⟨hne, r, hr⟩ := apply_variadic_succeeds_iff.1 h
    refine apply_variadic_succeeds_iff.2 ⟨?_, r, hr.perm (hp.map shape)⟩
    rintro rfl
    exact hne (List.perm_nil.1 hp)
  refine ⟨⟨hsucceeds hp, hsucceeds hp.symm⟩, fun y x hy hx => ⟨?_, ?_, ?_⟩⟩
  · exact (shape_eq_of_accepts hx ((accepts_shape_of_apply hy).perm (hp.map shape))).symm
  · have hne : ys.map sign ≠ [] :=
      mt List.map_eq_nil_iff.1 (apply_variadic_succeeds_iff.1 ⟨y, hy⟩).1
    rw [sign_of_apply hy, sign_of_apply hx, Variadic.sign_perm hne (hp.map sign)]
  · rw [curvature_eq_joined hy, curvature_eq_joined hx, op.joined_perm (hp.map curvature)]

theorem matched_grouped {groups : List (List Expr)} (hgroups : [] ∉ groups) :
    Matched Agrees (applyGrouped op groups) (apply (.variadic op) groups.flatten) := by
  have hmem : ∀ g ∈ groups, g ≠ [] := fun g hg h => hgroups (h ▸ hg)
  have hne : ∀ {parts : List Expr}, parts ≠ [] →
      List.Forall₂ (fun g x => apply (.variadic op) g = .ok x) groups parts → groups ≠ [] := by
    rintro parts hparts h rfl
    exact hparts (List.forall₂_nil_left_iff.1 h)
  constructor
  · constructor
    · rintro ⟨e, he⟩
      obtain ⟨parts, hparts, he⟩ := applyGrouped_eq_ok_iff.1 he
      obtain ⟨hnil, r, hr⟩ := apply_variadic_succeeds_iff.1 ⟨e, he⟩
      have hflatten := Variadic.flatten_ne_nil (hne hnil hparts) hgroups
      exact apply_variadic_succeeds_iff.2 ⟨hflatten, r, (accepts_parts_iff hgroups hparts).2 hr⟩
    · intro h
      obtain ⟨hnil, r, hr⟩ := apply_variadic_succeeds_iff.1 h
      have hpart : ∀ g ∈ groups, ∃ x, apply (.variadic op) g = .ok x := by
        intro g hg
        exact apply_variadic_succeeds_iff.2
          ⟨hmem g hg, hr.mono ((List.sublist_flatten_of_mem hg).map shape)⟩
      obtain ⟨parts, hparts⟩ := exists_forall₂ hpart
      have hcons : parts ≠ [] := by
        rintro rfl
        rw [List.forall₂_nil_right_iff.1 hparts] at hnil
        exact hnil rfl
      obtain ⟨e, he⟩ := apply_variadic_succeeds_iff.2
        ⟨hcons, r, (accepts_parts_iff hgroups hparts).1 hr⟩
      exact ⟨e, applyGrouped_eq_ok_iff.2 ⟨parts, hparts, he⟩⟩
  · intro y x hy hx
    obtain ⟨parts, hparts, hy⟩ := applyGrouped_eq_ok_iff.1 hy
    have hnil := (apply_variadic_succeeds_iff.1 ⟨y, hy⟩).1
    refine ⟨?_, ?_, ?_⟩
    · have haccepts := (accepts_parts_iff hgroups hparts).1 (accepts_shape_of_apply hx)
      exact shape_eq_of_accepts hy haccepts
    · rw [sign_of_apply hy, sign_of_apply hx, sign_parts (hne hnil hparts) hgroups hparts]
    · rw [curvature_eq_joined hy, curvature_eq_joined hx, joined_parts hparts]

/-- An atom of many arguments is applied in any order, or to groups of arguments first and then to
what has become of the groups: it succeeds in all these ways or in none, and with the same shape,
sign and curvature. -/
theorem application_order_free (op : Variadic) (xs : List Expr) :
    (∀ ys : List Expr, ys.Perm xs →
      Matched Agrees (apply (.variadic op) ys) (apply (.variadic op) xs)) ∧
    ∀ groups : List (List Expr), groups.flatten = xs → [] ∉ groups →
      Matched Agrees (applyGrouped op groups) (apply (.variadic op) xs) := by
  refine ⟨fun ys hp => matched_perm hp, ?_⟩
  rintro groups rfl hgroups
  exact matched_grouped hgroups

/-! ### A scalar, a constant and a column -/

def floor : Expr := var ⟨0, { sign := .positive }⟩

def unit : Expr := const 1 (.scalar 1)

def column : Expr := square (var ⟨2, { shape := .vector 3 }⟩)

/-- The scalars take the shape of the column wherever they stand, also in a group of their own. -/
theorem maximum_order_free : ∃ e f g, maximum [floor, unit, column] = .ok e ∧
    maximum [column, floor, unit] = .ok f ∧
    applyGrouped .maximum [[floor, unit], [column]] = .ok g ∧
    f.Agrees e ∧ g.Agrees e ∧ e.shape = .vector 3 ∧ e.curvature = .convex := by
  obtain ⟨hperm, hgroups⟩ := application_order_free .maximum [floor, unit, column]
  have hf := hperm [column, floor, unit]
    (List.perm_append_comm : ([column] ++ [floor, unit]).Perm ([floor, unit] ++ [column]))
  have hg := hgroups [[floor, unit], [column]] rfl (by simp)
  have he : maximum [floor, unit, column] =
      .ok (variadic none .maximum floor [unit, column]) := by rfl
  obtain ⟨f, hf'⟩ := hf.succeeds_iff.2 ⟨_, he⟩
  obtain ⟨g, hg'⟩ := hg.succeeds_iff.2 ⟨_, he⟩
  exact ⟨_, f, g, he, hf', hg', hf.related _ _ hf' he, hg.related _ _ hg' he, by decide, by decide⟩

end Expr

end DisciplinedConvex
